import Danmaku.Proofs.Machine.Termination
import Danmaku.Proofs.Safety.Unbroken

/-!
# How ticks within a budget end

A tick with a budget ends, whatever code runs (`Program.ticks_of_budget`). The machine finds the
target of a jump by a distance with a sum that wraps around at 64 bits, and such a target is out of
range whether the sum wraps around or not (`Exec.jumpBy_wraps`). On a host that checks its sums the
tick ends in the same way, unless such a sum is too large: then it breaks there, at the last
instruction of the tick, instead of coming to a fault (`Program.tick_terminates`).
-/

namespace Danmaku

/-- **The target of a jump may be found by a sum that wraps around**, if addresses and distances are
numbers of 64 bits. -/
theorem Exec.jumpBy_wraps {size : Nat} {offset : Int} {c : Config}
    (hsize : size < 0x8000000000000000) (hip : c.thread.ip ≤ size)
    (hlow : -0x8000000000000000 ≤ offset) (hhigh : offset < 0x8000000000000000) :
    jumpBy size offset c =
      let target := Int.bmod (c.thread.ip + offset) 0x10000000000000000
      if 0 ≤ target ∧ target ≤ size then goTo target.toNat c
      else .error (.jumpOutOfRange target size) c := by
  rw [jumpBy]
  by_cases hsum : c.thread.ip + offset < 0x8000000000000000
  · simp only [Strict.bmod_of_mem (n := c.thread.ip + offset) (by omega) hsum]
  · -- The sum is less than twice what it may be, so it wraps around to a number below zero.
    have hwrap : Int.bmod (c.thread.ip + offset) 0x10000000000000000 =
        c.thread.ip + offset - 0x10000000000000000 := by
      rw [← Int.sub_bmod_right]
      exact Strict.bmod_of_mem (by omega) (by omega)
    simp only [hwrap]
    rw [if_neg (by omega), if_neg (by omega)]

/-- **Every tick with a budget comes to an end**, whatever the words of the code, the functions of
the catalog and the configuration are. However it ends, it has executed no more instructions than
the budget allows, and has left no more calls at the end of their code than there were open when it
began and instructions in the budget.

On a host that does not let sums wrap around, a thread that has come of calls of the host ends the
tick in the same configuration, and with the same result. Only a jump by a distance whose target is
too large for a signed 64-bit number has no result there. The tick is then over as well. -/
theorem Program.tick_terminates (p : Program) {c : Config} {budget : Nat}
    (hbudget : c.thread.limits.budget = some budget) :
    (∃ steps result c', p.Ticks c steps result c') ∧
      (∀ steps result c', p.Ticks c steps result c' →
        (∀ patience, p.tick patience c = some (result, c')) ∧
        steps.countP (fun x => p.isAtInstr x.thread) ≤ budget ∧
        steps.countP (fun x => p.isAtEnd x.thread) ≤ budget + c.thread.frames.length) ∧
      ∀ limits, c.thread.Hosted (fun _ _ => True) limits → limits.Budgeted → Strict.Held p →
        ∀ patience, ∃ result c', p.tick patience c = some (result, c') ∧
          (Strict.tick p patience c = some (Strict.ofResult result, c') ∨
            Strict.tick p patience c = some (.error .broken, c') ∧
              (∃ x size, result = .error (.jumpOutOfRange x size)) ∧ Strict.Overflows p c') := by
  obtain ⟨hends, hticks⟩ := p.ticks_of_budget hbudget
  refine ⟨hends, hticks, fun limits hhosted hlimits hp patience => ?_⟩
  obtain ⟨result, c', htick⟩ := p.tick_of_budget patience hbudget
  refine ⟨result, c', htick, ?_⟩
  have hstrict : Strict.tick p patience c =
        (p.tick patience c).map (fun x => (Strict.ofResult x.1, x.2)) ∨
      Strict.BreaksAt p (p.tick patience c) (Strict.tick p patience c) :=
    Strict.tick_eq_or hhosted.sized hlimits hp
  obtain heq | ⟨x, size, c₁, hfault, hbroken, hover⟩ := hstrict
  · left
    rw [heq, htick, Option.map_some]
  · obtain ⟨rfl, rfl⟩ := Prod.mk.inj (Option.some.inj (htick.symm.trans hfault))
    exact .inr ⟨hbroken, ⟨x, size, rfl⟩, hover⟩

/-- Code that calls two functions over and over. The first has no code, and the second calls the
first at the end of its own. -/
def churning : Program where
  catalog := {
    functions := ⟨#[("empty", { index? := some 0 }),
      ("relay", { code := .ofList (Instr.call 0).words, index? := some 1 })]⟩ }
  code := .ofList ([Instr.call 1, .pop, .jump 0].flatMap Instr.words)
  looping := true

/-- A new thread for it. -/
def churningStart : Config where
  thread := .ofLimits { stack := 1, slots := 0, handles := 0, depth := 2, budget := some 9 }
  entity := ⟨0, #[]⟩

theorem churning_held : Strict.Held churning := by
  have hroutines : ∀ i r, churning.catalog.function? i = some r →
      r.Declared ∧ r.code.size ≤ 0x2000000000000000 := by
    intro i r hr
    have hmake : Routine.withParameters [] {} = .ok {} := rfl
    have hempty : Routine.Declared {} := .parameters hmake
    obtain ⟨x, hx, rfl⟩ := Option.map_eq_some_iff.1 hr
    have hmem := List.mem_of_getElem? ((Array.getElem?_toList ..).trans hx)
    rcases List.mem_cons.1 hmem with rfl | hmem
    · exact ⟨hempty.index _, by decide⟩
    · obtain rfl := List.mem_singleton.1 hmem
      exact ⟨(hempty.code _).index _, by decide +kernel⟩
  refine ⟨fun kind i r hr => ?_, by decide +kernel, fun i r hr => (hroutines i r hr).2⟩
  cases kind with
  | function => exact (hroutines i r hr).1
  | action | emitterUpdater | bulletUpdater => cases hr

theorem Program.churning_terminates :
    (churning.tick 0 churningStart).map Prod.fst = some (.error (.budgetExceeded 9)) ∧
      (∃ steps result c', churning.Ticks churningStart steps result c') ∧
      (∀ steps result c', churning.Ticks churningStart steps result c' →
        (∀ patience, churning.tick patience churningStart = some (result, c')) ∧
        steps.countP (fun x => churning.isAtInstr x.thread) ≤ 9 ∧
        steps.countP (fun x => churning.isAtEnd x.thread) ≤
          9 + churningStart.thread.frames.length) ∧
      ∀ patience, ∃ result c', churning.tick patience churningStart = some (result, c') ∧
        (Strict.tick churning patience churningStart = some (Strict.ofResult result, c') ∨
          Strict.tick churning patience churningStart = some (.error .broken, c') ∧
            (∃ x size, result = .error (.jumpOutOfRange x size)) ∧
            Strict.Overflows churning c') := by
  have hlimits : churningStart.thread.limits.Budgeted := ⟨by decide, 9, by decide, rfl⟩
  obtain ⟨hends, hticks, hstrict⟩ := churning.tick_terminates (c := churningStart) rfl
  exact ⟨by decide +kernel, hends, hticks, hstrict _ .new hlimits churning_held⟩

/-- A jump whose distance is the largest that there is. -/
def leaping : Program where
  catalog := {}
  code := .ofList [Opcode.jumpBy.word, Float32.ofBits 0x5f000000]
  looping := false

example : (leaping.tick 0 churningStart).map Prod.fst =
      some (.error (.jumpOutOfRange (-9223372036854775807) 2)) ∧
    (Strict.tick leaping 0 churningStart).map Prod.fst = some (.error .broken) := by
  decide +kernel

end Danmaku
