import Straightline.Proofs.Allocation.Frame
import Straightline.Proofs.Allocation.Walk

/-! The allocation of a renamed block is a walk over its instructions. It starts with every register
free and ends with the block that the walk leaves behind, or stops where the walk fails. -/
namespace Straightline.Allocation
open Renaming (Step Renames envAbove)

def Ledger.initial (plan : Plan) (steps : List Step) : Ledger where
  record _ := {}
  holder _ := none
  free := Reg.below plan.usable
  pinned := .empty
  owners := []
  stats := {}
  done := []
  rest := steps.map fun s => (s.handle, s.instr)

section
variable {plan : Plan} {n k : Nat} {b : Block} {es : List (Handle × Instr)} {steps : List Step}
  {summary : Renaming.Summary} {options : Options}

theorem planMade (made : Plan.make k summary options = .ok plan) : k ≤ 64 ∧
    (summary.maxPressure ≤ k ∧ plan = ⟨k, none, options⟩ ∨
      k < summary.maxPressure ∧ 2 ≤ k ∧ plan = ⟨k - 1, Reg.ofNat? .physical (k - 1), options⟩) := by
  unfold Plan.make at made
  split at made
  · contradiction
  split at made
  · contradiction
  split at made
  · cases made
    exact ⟨by omega, .inl ⟨by assumption, rfl⟩⟩
  split at made
  · contradiction
  · cases made
    exact ⟨by omega, .inr ⟨by omega, by omega, rfl⟩⟩

theorem planSound (made : Plan.make k summary options = .ok plan) : plan.Sound := by
  obtain ⟨few, ⟨-, rfl⟩ | ⟨-, -, rfl⟩⟩ := planMade made
  · exact ⟨few, by simp⟩
  · exact ⟨Nat.le_trans (Nat.sub_le k 1) few, fun a address => Reg.numberOfNat address⟩

theorem planOptions (made : Plan.make k summary options = .ok plan) : plan.options = options := by
  obtain ⟨-, ⟨-, rfl⟩ | ⟨-, -, rfl⟩⟩ := planMade made <;> rfl

theorem allocateOk (renamed : b.rename.result = .ok summary) :
    (b.allocate k options).2 = b.rename.block.allocateRenamed summary k options := by
  simp only [Block.allocate, renamed]

theorem initialReflects (spells : b.Spells (steps.map fun s => (s.handle, s.instr))) :
    Reflects plan n (State.initial b plan n) (Ledger.initial plan steps) := by
  refine ⟨?_, ?_, fun v => ?_, fun p => ?_, rfl, rfl, rfl, rfl, rfl, spells⟩
  · simp [State.initial]
  · simp [State.initial]
  · by_cases inside : v.number < n <;> simp [State.initial, Ledger.initial, inside]
  · by_cases inside : p.number < plan.usable <;> simp [State.initial, Ledger.initial, inside]

theorem initialStage (plan : Plan) (n : Nat) (steps : List Step) :
    Stage plan n steps (Ledger.initial plan steps) := by
  have tables : Tables plan n (Ledger.initial plan steps) (Reg.below plan.usable) := by
    refine ⟨fun v p => ?_, fun p o held => ?_, fun p => ?_, Reg.belowNodup _⟩
    · simp [Ledger.initial]
    · simp [Ledger.initial] at held
    · simp [Ledger.initial, Reg.memBelow]
  have saved : Saved plan n (Ledger.initial plan steps) := by
    refine ⟨fun v => ⟨?_, ?_⟩, fun v w => ?_, ?_, ?_, ?_, ?_⟩
    all_goals simp [Ledger.initial]
  refine ⟨⟨tables, saved⟩, rfl, fun v home => ?_, fun v _ _ => ?_, fun v _ => rfl⟩
  · simp [Ledger.initial] at home
  · simp [Ledger.initial]

theorem runsAllocate {l : Ledger} (plans : plan.Sound) (renames : Renames 0 es steps)
    (stage : Stage plan n steps l) (numbered : (envAbove steps).minted ≤ n) :
    Runs plan n (Work.allocateEach plan (steps.map Step.handle)) l
      (fun _ m => Walks plan steps l m ∧ Stage plan n [] m)
      fun e m => Fails plan n e steps l m ∨ Naming.virtual.limit < n := by
  refine runsBind (runsMono (runsWalk plans.few renames stage numbered) (fun _ m walked => ?_)
    fun e m fails => .inl fails)
  refine runsGet fun s reflects => ?_
  -- The audit names every number below `n`, which fails when there are more of them than names.
  rcases Nat.lt_or_ge Naming.virtual.limit n with more | named
  · cases s.auditAll plan with
    | ok a => exact runsPure walked
    | error e => exact runsThrow (.inr more)
  · rw [auditAllOk reflects plans walked.2.sound.tables named]
    exact runsPure walked

variable (spells : b.Spells (steps.map fun s => (s.handle, s.instr))) (renames : Renames 0 es steps)
  (numbered : (envAbove steps).minted ≤ summary.numVirtual)
include spells renames numbered

theorem allocateRenamedCases (made : Plan.make k summary options = .ok plan)
    (room : summary.numVirtual < 9223372036854775808) :
    match (b.allocateRenamed summary k options).result with
    | .ok output => ∃ m, Walks plan steps (Ledger.initial plan steps) m ∧
        Stage plan summary.numVirtual [] m ∧
        (b.allocateRenamed summary k options).block.Spells m.done ∧
        output = ⟨plan.usable, plan.address, m.owners.length, m.stats⟩
    | .error e => (∃ m, Fails plan summary.numVirtual e steps (Ledger.initial plan steps) m ∧
          (b.allocateRenamed summary k options).block.Spells (m.done ++ m.rest)) ∨
        Naming.virtual.limit < summary.numVirtual := by
  have handles : b.handles = steps.map Step.handle := by
    rw [Chain.spellsHandles spells, List.map_map]
    rfl
  have reserved : reserve summary.numVirtual 1 = .ok () := by
    rw [reserve, Nat.mul_one, if_pos room]
  have ran := runsAllocate (planSound made) renames (initialStage plan _ steps) numbered
    (State.initial b plan summary.numVirtual) (initialReflects spells)
  rw [← handles] at ran
  have sound := Chain.spellsSound spells
  cases ended : Work.allocateEach plan b.handles (State.initial b plan summary.numVirtual) with
  | ok _ s =>
    rw [ended] at ran
    obtain ⟨m, reflects, walks, stage⟩ := ran
    rw [allocatedOk sound made reserved ended]
    refine ⟨m, walks, stage, ?_, ?_⟩
    · have spelled := reflects.spells
      rw [stage.rest, List.map_nil, List.append_nil] at spelled
      exact spelled
    · simp only [State.output, reflects.slots, reflects.stats]
  | error e s =>
    rw [ended] at ran
    obtain ⟨m, reflects, ends⟩ := ran
    rw [allocatedError sound made reserved ended]
    exact ends.imp_left fun fails => ⟨m, fails, reflects.spells⟩

theorem allocatedWalk {output : Output}
    (ok : (b.allocateRenamed summary k options).result = .ok output) :
    ∃ plan m, Plan.make k summary options = .ok plan ∧
      Walks plan steps (Ledger.initial plan steps) m ∧ Stage plan summary.numVirtual [] m ∧
      (b.allocateRenamed summary k options).block.Spells m.done ∧
      output = ⟨plan.usable, plan.address, m.owners.length, m.stats⟩ := by
  cases made : Plan.make k summary options with
  | error stop => simp [Block.allocateRenamed, made] at ok
  | ok plan =>
    rcases Nat.lt_or_ge summary.numVirtual 9223372036854775808 with room | full
    · have cases := allocateRenamedCases spells renames numbered made room
      rw [ok] at cases
      obtain ⟨m, allocated⟩ := cases
      exact ⟨plan, m, rfl, allocated⟩
    · have reserved : reserve summary.numVirtual 1 = .error .noRoom := by
        rw [reserve, Nat.mul_one, if_neg (Nat.not_lt.mpr full)]
      simp [Block.allocateRenamed, made, reserved] at ok

end

def spilledSum : Block :=
  let r := Reg.ofNat? .source
  .ofList [.loadI 1 1024 (r 0), .load 2 (r 0) (r 1), .load 3 (r 1) (r 2), .load 4 (r 2) (r 3),
    .ternary 5 .add (r 1) (r 2) (r 4), .ternary 6 .mult (r 4) (r 3) (r 5), .store 7 (r 5) (r 0),
    .output 8 1024]

end Straightline.Allocation
