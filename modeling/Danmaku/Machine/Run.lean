import Danmaku.Machine.Step

/-!
# Ticks

A tick takes steps until the code returns, comes to its end, waits or faults. The next tick takes
the thread up where the last one left it.

A tick may execute only so many instructions; steps at the end of a function's code are not
counted. If the thread's limits set no such budget the code may run for ever, so the host says how
many steps it waits for the end of the tick.
-/

namespace Danmaku

namespace Limits

/-- The budget, if it is used up. -/
def exhausted? (l : Limits) (spent : Nat) : Option Nat :=
  match l.budget with
  | some budget => if budget ≤ spent then some budget else none
  | none => none

end Limits

/-- What a tick comes to. -/
abbrev TickResult := Except Fault Status

namespace Program

/-- Take up to `fuel` steps, `spent` instructions of the tick having been executed. There is no
result if that is not enough.

The instructions are counted by a natural number, where a host counts in 32 bits. A budget is a
number of 32 bits, so the count stays one as long as there is a budget (`Program.Allows.succ_lt`);
if there is none, the count is compared with nothing. -/
def run (p : Program) : (fuel spent : Nat) → Config → Option (TickResult × Config)
  | 0, _, _ => none
  | fuel + 1, spent, c =>
    let counts := p.isAtInstr c.thread
    match if counts then c.thread.limits.exhausted? spent else none with
    | some budget => some (.error (.budgetExceeded budget), c)
    | none =>
      match p.step c with
      | .error fault c => some (.error fault, c)
      | .ok (.stop status) c => some (.ok status, c)
      | .ok .next c => p.run fuel (if counts then spent + 1 else spent) c

/-- How many steps a tick is given. Within a budget this is enough for every tick: each step
executes an instruction, or closes a call that was open before the tick or that an instruction of
the tick has opened, or is the last. -/
def fuel (patience : Nat) (t : Thread) : Nat :=
  match t.limits.budget with
  | some budget => 2 * budget + t.frames.length + 1
  | none => patience

/-- Run a thread that does not wait. -/
def resume (p : Program) (patience : Nat) (c : Config) : Option (TickResult × Config) :=
  p.run (fuel patience c.thread) 0 { c with thread := { c.thread with mode := .ready } }

/-- One tick. A finished thread stays so; a waiting one counts the tick, and goes on if it was the
last that it had to wait for. -/
def tick (p : Program) (patience : Nat) (c : Config) : Option (TickResult × Config) :=
  match c.thread.mode with
  | .finished => some (.ok .completed, c)
  | .waiting (ticks + 2) =>
    some (.ok .suspended, { c with thread := { c.thread with mode := .waiting (ticks + 1) } })
  | .waiting _ | .ready => p.resume patience c

end Program

namespace Catalog

/-- The fault of running a routine that is not there. -/
def missingRoutine (kind : RoutineKind) (index : Nat) : Fault :=
  match kind with
  | .function => .unknownFunction index
  | .action | .emitterUpdater | .bulletUpdater => .unknownUpdater index

/-- One tick of a routine of the catalog. Its variables are claimed for the root first. -/
def tick (catalog : Catalog) (kind : RoutineKind) (index : Nat) (looping : Bool) (patience : Nat)
    (c : Config) : Option (TickResult × Config) :=
  match (catalog.routines kind).at? index with
  | none => some (.error (missingRoutine kind index), c)
  | some r =>
    match c.thread.reserve r.variableCount with
    | .error fault => some (.error fault, c)
    | .ok thread =>
      Program.tick { catalog, code := r.code, looping } patience { c with thread }

end Catalog

end Danmaku
