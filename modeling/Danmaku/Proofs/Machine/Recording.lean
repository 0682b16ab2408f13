import Danmaku.Machine.Run
import Danmaku.Proofs.Meaning.Basic

/-!
# Recordings

A recording is a configuration of the machine together with a log of what was done so far.
Advancing it takes a step of the machine and notes its effect (`Program.advance`); a thread that
waits is taken up again, as later ticks do. What the step does is read off the instruction at which
the thread is.

`Program.Plays` is the run of several steps, none of which is the last, and `Program.Leads` says
that a goal is reached along the way, or a fault that is excused.
-/

namespace Danmaku

/-- A configuration, and what was done so far. -/
structure Recording where
  /-- The configuration. -/
  config : Config
  /-- What was done so far. -/
  log : List Effect

/-- What a step makes of a recording. -/
inductive Progress
  /-- The run goes on. -/
  | on (r : Recording)
  /-- The run is over, at the end of the root or with a fault. -/
  | over (result : Except Fault Unit) (r : Recording)

/-- The top of the operand stack. -/
def Config.top (c : Config) : Word := c.thread.stack.values.back?.getD 0

namespace Program

variable (p : Program) (names : List String)

/-- The instruction at which a thread is. -/
def instr? (t : Thread) : Option Instr :=
  match p.running t with
  | .ok code => (Instr.decode code.words t.ip).toOption.map Prod.fst
  | .error _ => none

theorem instr?_of_decode {p : Program} {t : Thread} {code : Code} {i : Instr} {next : Nat}
    (hrun : p.running t = .ok code) (hdecode : Instr.decode code.words t.ip = .ok (i, next)) :
    p.instr? t = some i := by
  simp only [instr?, hrun, hdecode, Except.toOption, Option.map_some]

/-- The names of the variables of the innermost call. Those of the root are given, as the root is
code alone. -/
def namesOf (t : Thread) : List String :=
  match t.frames with
  | [] => names
  | f :: _ => ((p.catalog.function? f.function).map Routine.numbers).getD []

/-- What a step does, from one configuration to another. -/
def effects (before after : Config) : List Effect :=
  match p.instr? before.thread with
  | some (.setVariable slot) =>
    [.variable ((p.namesOf names before.thread).getD slot "") before.top]
  | some (.setProperty property) =>
    [.property (p.catalog.types.propertyNames.getD property "") before.top]
  | some (.fire _) | some (.fireWith _ _) =>
    (after.shots.toList.drop before.shots.size).map .shot
  | some .wait => [.wait before.top]
  | _ => []

/-- Take a step and note what it does. -/
def advance (r : Recording) : Progress :=
  match p.step r.config with
  | .error fault c => .over (.error fault) ⟨c, r.log⟩
  | .ok .next c => .on ⟨c, r.log ++ p.effects names r.config c⟩
  | .ok (.stop .suspended) c =>
    .on ⟨{ c with thread := { c.thread with mode := .ready } },
      r.log ++ p.effects names r.config c⟩
  | .ok (.stop .completed) c => .over (.ok ()) ⟨c, r.log ++ p.effects names r.config c⟩

/-- A run of so many steps, none of which is the last. -/
inductive Plays : Nat → Recording → Recording → Prop
  /-- No step. -/
  | refl (r : Recording) : Plays 0 r r
  /-- A step, and a run after it. -/
  | step {n : Nat} {r r' r'' : Recording} (first : p.advance names r = .on r')
      (rest : Plays n r' r'') : Plays (n + 1) r r''

/-- The run comes after so many steps or more to a recording with some property, or to a fault that
is excused. -/
inductive Leads (excuse : Fault → Prop) (goal : Recording → Prop) : Nat → Recording → Prop
  /-- It is there. -/
  | here {r : Recording} (reached : goal r) : Leads excuse goal 0 r
  /-- It comes there after a step. -/
  | step {m n : Nat} {r r' : Recording} (first : p.advance names r = .on r')
      (rest : Leads excuse goal n r') (le : m ≤ n + 1) : Leads excuse goal m r
  /-- It faults, and that is excused. -/
  | excused {n : Nat} {r r' : Recording} {fault : Fault}
      (last : p.advance names r = .over (.error fault) r') (excused : excuse fault) :
      Leads excuse goal n r

variable {p names}

namespace Leads

variable {excuse : Fault → Prop} {goal goal' : Recording → Prop}

theorem mono {m n : Nat} {r : Recording} (h : p.Leads names excuse goal n r) (hle : m ≤ n) :
    p.Leads names excuse goal m r := by
  cases h with
  | here reached => rw [Nat.le_zero.1 hle]; exact .here reached
  | step first rest le => exact .step first rest (by omega)
  | excused last he => exact .excused last he

/-- A goal from which another one is reached. -/
theorem bind {m n : Nat} {r : Recording} (h : p.Leads names excuse goal m r)
    (next : ∀ r', goal r' → p.Leads names excuse goal' n r') :
    p.Leads names excuse goal' (m + n) r := by
  induction h with
  | here reached => rw [Nat.zero_add]; exact next _ reached
  | step first rest le ih => exact .step first ih (by omega)
  | excused last he => exact .excused last he

/-- Where nothing is excused, the goal is reached. -/
theorem plays {n : Nat} {r : Recording} (h : p.Leads names (fun _ => False) goal n r) :
    ∃ m r', n ≤ m ∧ p.Plays names m r r' ∧ goal r' := by
  induction h with
  | here reached => exact ⟨0, _, Nat.le_refl _, .refl _, reached⟩
  | step first rest le ih =>
    obtain ⟨m, r', hm, hplays, hgoal⟩ := ih
    exact ⟨m + 1, r', by omega, .step first hplays, hgoal⟩
  | excused last he => exact he.elim

end Leads

end Program

end Danmaku
