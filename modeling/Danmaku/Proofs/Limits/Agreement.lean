import Danmaku.Proofs.Machine.Outcome

/-!
# Outcomes that agree

Limits are compared by what they allow (`Limits.AtMost`). A computation under some limits, and the
same computation under larger ones, should have the same outcome, unless the first is cut short by
one of its limits (`Agree`). A computation is said to scale if it does so from all states that are
related; scaling computations can be put together (`Scales.bind`).

The operations of the operand stack scale, if there is more room on the second stack
(`Stack.scales_perform`). A delegate does if it cannot tell how much room there is
(`Delegate.IgnoresCapacity`); this is so as long as it gives up where an operation fails
(`Delegate.IgnoresCapacity.request`).
-/

namespace Danmaku

/-! ## Limits -/

/-- The second limits allow at least what the first allow. Without a budget most is allowed. -/
structure Limits.AtMost (l l' : Limits) : Prop where
  stack : l.stack ≤ l'.stack
  slots : l.slots ≤ l'.slots
  handles : l.handles ≤ l'.handles
  depth : l.depth ≤ l'.depth
  budget : ∀ budget', l'.budget = some budget' → ∃ budget ≤ budget', l.budget = some budget

/-- Whether a fault says that a limit has been reached. -/
def Fault.isLimit : Fault → Bool
  | stackOverflow _ | variableOutOfRange _ | callDepthExceeded _ | budgetExceeded _ => true
  | _ => false

/-- Larger limits are not exhausted where smaller ones are not. -/
theorem Limits.AtMost.exhausted? {l l' : Limits} (h : l.AtMost l') {spent : Nat}
    (hleft : l.exhausted? spent = none) : l'.exhausted? spent = none := by
  unfold Limits.exhausted? at hleft ⊢
  cases hbudget' : l'.budget with
  | none => rfl
  | some budget' =>
    obtain ⟨budget, hle, hbudget⟩ := h.budget budget' hbudget'
    simp only [hbudget] at hleft ⊢
    split at hleft
    · cases hleft
    · next hlt => exact if_neg (by omega)

/-- Where smaller limits set no budget, larger ones set none. -/
theorem Limits.AtMost.budget_eq_none {l l' : Limits} (h : l.AtMost l') (hnone : l.budget = none) :
    l'.budget = none := by
  cases hsome : l'.budget with
  | none => rfl
  | some budget' =>
    obtain ⟨budget, -, heq⟩ := h.budget budget' hsome
    cases hnone.symm.trans heq

/-! ## Computations -/

section

variable {σ α β : Type} {R : σ → σ → Prop}

/-- Two outcomes are the same, and their states are related, unless the first is a fault of a
limit. -/
inductive Agree (R : σ → σ → Prop) : (r r' : EStateM.Result Fault σ α) → Prop
  | ok {a : α} {s s' : σ} (related : R s s') : Agree R (.ok a s) (.ok a s')
  | error {f : Fault} {s s' : σ} (related : R s s') : Agree R (.error f s) (.error f s')
  | cut {f : Fault} {s : σ} {r' : EStateM.Result Fault σ α} (limit : f.isLimit) :
      Agree R (.error f s) r'

/-- From related states a computation has outcomes that agree. -/
def Scales (R : σ → σ → Prop) (m : EStateM Fault σ α) : Prop :=
  ∀ s s', R s s' → Agree R (m s) (m s')

variable {m : EStateM Fault σ α} {k : α → EStateM Fault σ β} {s s' : σ}

/-- One computation after another. What is needed of the second may be known only from how the
first has ended. -/
theorem Agree.bind (hm : Agree R (m s) (m s'))
    (hk : ∀ a s₁ s₁', m s = .ok a s₁ → R s₁ s₁' → Agree R (k a s₁) (k a s₁')) :
    Agree R ((m >>= k) s) ((m >>= k) s') := by
  rw [show (m >>= k) s = EStateM.bind m k s from rfl,
    show (m >>= k) s' = EStateM.bind m k s' from rfl, EStateM.bind, EStateM.bind]
  generalize hs : m s = r at hm
  generalize m s' = r' at hm
  cases hm with
  | ok related => exact hk _ _ _ hs related
  | error related => exact .error related
  | cut limit => exact .cut limit

theorem Scales.bind (hm : Scales R m) (hk : ∀ a, Scales R (k a)) : Scales R (m >>= k) :=
  fun s s' h => .bind (hm s s' h) fun a s₁ s₁' _ h₁ => hk a s₁ s₁' h₁

theorem Scales.pure (a : α) : Scales R (pure a : EStateM Fault σ α) := fun _ _ h => .ok h

end

/-! ## The operand stack -/

namespace Stack

/-- The second stack holds the same values, and has no less room. -/
structure Roomier (s s' : Stack) : Prop where
  capacity : s.capacity ≤ s'.capacity
  values : s'.values = s.values

namespace Roomier

variable {s s' : Stack}

theorem size_eq (h : s.Roomier s') : s'.size = s.size := congrArg Array.size h.values

/-- The same is done to the values of both. -/
theorem withValues (h : s.Roomier s') (values : Array Word) :
    Roomier { s with values } { s' with values } := ⟨h.capacity, rfl⟩

end Roomier

variable (v : Word) (n : Nat)

theorem scales_push : Scales Roomier (push v) := by
  intro s s' h
  rw [push, push, h.values]
  by_cases hfull : s.capacity ≤ s.values.size
  · rw [if_pos hfull]
    exact .cut rfl
  · have hcapacity := h.capacity
    rw [if_neg hfull, if_neg (by omega)]
    exact .ok (h.withValues _)

theorem scales_pop : Scales Roomier pop := by
  intro s s' h
  rw [pop, pop, h.values]
  split
  · exact .error h
  · exact .ok (h.withValues _)

theorem scales_peek : Scales Roomier peek := by
  intro s s' h
  rw [peek, peek, h.values]
  split
  · exact .error h
  · exact .ok h

theorem scales_replaceTop : Scales Roomier (replaceTop v) := by
  intro s s' h
  rw [replaceTop, replaceTop, h.values]
  split
  · exact .error h
  · exact .ok (h.withValues _)

theorem scales_popMany : Scales Roomier (popMany n) := by
  intro s s' h
  rw [popMany, popMany, h.values]
  split
  · exact .error h
  · exact .ok (h.withValues _)

theorem scales_truncate : Scales Roomier (truncate n) := by
  intro s s' h
  rw [truncate, truncate, h.values]
  exact .ok (h.withValues _)

theorem scales_clear : Scales Roomier clear := fun _ _ h => .ok (h.withValues _)

/-- **A request has the same answer where there is more room**, unless it is to put a value on a
stack that is full. -/
theorem scales_perform (r : StackRequest) : Scales Roomier r.perform := by
  cases r with
  | push v => exact .bind (scales_push v) fun _ => .pure _
  | pop => exact .bind scales_pop fun _ => .pure _
  | peek => exact .bind scales_peek fun _ => .pure _
  | replaceTop v => exact .bind (scales_replaceTop v) fun _ => .pure _
  | popMany n => exact scales_popMany n
  | truncate n => exact .bind (scales_truncate n) fun _ => .pure _
  | clear => exact .bind scales_clear fun _ => .pure _
  | values =>
    intro s s' h
    change Agree Roomier (.ok s.values.toList s) (.ok s'.values.toList s')
    rw [h.values]
    exact .ok h

end Stack

/-! ## Delegates -/

namespace Delegate

/-- Where there is more room on the stack a delegate does the same, unless it has come to the end
of the room. -/
def IgnoresCapacity (d : Delegate) : Prop := Scales Stack.Roomier d.run

namespace IgnoresCapacity

theorem done (outcome : Except Fault Unit) : IgnoresCapacity (.done outcome) := by
  intro s s' h
  cases outcome with
  | ok u => exact .ok h
  | error f => exact .error h

/-- **A delegate that gives up where an operation fails ignores the capacity**, as long as it does
so with what it goes on with. -/
theorem request {r : StackRequest} {next : List Word → Delegate}
    (h : ∀ values, IgnoresCapacity (next values)) : IgnoresCapacity (Delegate.request r next) := by
  intro s s' hs
  have hperform := Stack.scales_perform r s s' hs
  rw [Delegate.request, run]
  simp only
  generalize r.perform s = x at hperform
  generalize r.perform s' = x' at hperform
  cases hperform with
  | ok related => exact h _ _ _ related
  | error related => exact .error related
  | cut limit => exact .cut limit

theorem perform (r : StackRequest) : IgnoresCapacity (Delegate.perform r) :=
  request fun _ => done (.ok ())

theorem maximum : IgnoresCapacity Delegate.maximum :=
  request fun _ => request fun _ => perform _

end IgnoresCapacity

end Delegate

end Danmaku
