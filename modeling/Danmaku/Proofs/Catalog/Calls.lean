/-!
# Calls that may be refused

A thing is made by calls, each of which gives an answer and the thing that it has become, or is
refused (`Calls.after`). The same calls can be made to a store that is changed in place, where a
call that is refused might leave anything behind (`Calls.changed`). If the store answers each call
as the thing does, then so it does after any calls (`Calls.Mirrors`).
-/

namespace Danmaku.Calls

variable {σ τ γ β ε : Type}

/-- What calls make of a thing. One that is refused leaves it as it is. -/
def after (call : σ → γ → Except ε (β × σ)) : σ → List γ → σ
  | s, [] => s
  | s, c :: calls =>
    match call s c with
    | .ok (_, s') => after call s' calls
    | .error _ => after call s calls

/-- The calls that are not refused. -/
def accepted (call : σ → γ → Except ε (β × σ)) : σ → List γ → List γ
  | _, [] => []
  | s, c :: calls =>
    match call s c with
    | .ok (_, s') => c :: accepted call s' calls
    | .error _ => accepted call s calls

/-- What calls make of a store that is changed in place. -/
def changed (act : τ → γ → Except ε β × τ) (x : τ) (calls : List γ) : τ :=
  calls.foldl (fun x c => (act x c).2) x

/-- A store has answered as the thing does, and is again related to it. If the call is refused, the
store is what it was. -/
inductive Alike (R : τ → σ → Prop) (x : τ) : Except ε β × τ → Except ε (β × σ) → Prop
  | refused (e : ε) : Alike R x (.error e, x) (.error e)
  | accepted (b : β) {x' : τ} {s' : σ} (h : R x' s') : Alike R x (.ok b, x') (.ok (b, s'))

/-- A store that is changed by calls is related to the thing that they make, and answers a further
call as it does. If that is refused, nothing has changed. -/
structure Mirrors (R : τ → σ → Prop) (act : τ → γ → Except ε β × τ)
    (call : σ → γ → Except ε (β × σ)) (x : τ) (s : σ) : Prop where
  related : ∀ calls, R (changed act x calls) (after call s calls)
  alike : ∀ calls c, Alike R (changed act x calls) (act (changed act x calls) c)
    (call (after call s calls) c)

variable {call : σ → γ → Except ε (β × σ)} {act : τ → γ → Except ε β × τ} {R : τ → σ → Prop}

/-- A reading of the answers. -/
theorem Alike.map {β' : Type} (f : β → β') {x : τ} {outcome : Except ε β × τ}
    {result : Except ε (β × σ)} (h : Alike R x outcome result) :
    Alike R x (outcome.map (Except.map f) id) (result.map (Prod.map f id)) := by
  cases h with
  | refused e => exact .refused e
  | accepted b h' => exact .accepted (f b) h'

theorem after_append (s : σ) (calls more : List γ) :
    after call s (calls ++ more) = after call (after call s calls) more := by
  induction calls generalizing s with
  | nil => rfl
  | cons c calls ih =>
    rw [List.cons_append, after, after]
    split
    · exact ih _
    · exact ih _

/-- What every accepted call keeps holds after all calls. -/
theorem after_induct {P : σ → Prop} (step : ∀ s c b s', call s c = .ok (b, s') → P s → P s') {s : σ}
    (hs : P s) (calls : List γ) : P (after call s calls) := by
  induction calls generalizing s with
  | nil => exact hs
  | cons c calls ih =>
    rw [after]
    split
    · next b s' h => exact ih (step s c b s' h hs)
    · exact ih hs

/-- A store that answers each call alike remains related. -/
theorem related (step : ∀ x s c, R x s → Alike R x (act x c) (call s c)) {x : τ} {s : σ} (h : R x s)
    (calls : List γ) : R (changed act x calls) (after call s calls) := by
  induction calls generalizing x s with
  | nil => exact h
  | cons c calls ih =>
    have hstep := step x s c h
    rw [changed, List.foldl_cons, after]
    generalize act x c = outcome at hstep ⊢
    generalize call s c = answer at hstep ⊢
    cases hstep with
    | refused e => exact ih h
    | accepted b h' => exact ih h'

theorem mirrors_of (step : ∀ x s c, R x s → Alike R x (act x c) (call s c)) {x : τ} {s : σ}
    (h : R x s) : Mirrors R act call x s where
  related := related step h
  alike calls c := step _ _ c (related step h calls)

end Danmaku.Calls
