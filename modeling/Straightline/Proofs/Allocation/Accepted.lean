import Mathlib.Data.List.Forall2
import Straightline.Proofs.Allocation.Mirror
import Straightline.Proofs.Allocation.Run

/-! What the allocator produces passes the check. The frame of the block that allocation leaves
behind knows what the frame of the renamed block knows, since physical registers are all that
differs in what was given. -/
namespace Straightline

theorem Instr.housesWritten {i j : Instr} (houses : i.Houses j) :
    j.writtenReg .virtual = i.writtenReg .virtual := by
  simp only [writtenReg, writtenOperand, houses.opcode]
  cases i.opcode.writes with
  | none => rfl
  | some slot => simp [Operand.reg, houses.virtual]

theorem housedWritten {is js : List Instr} (housed : List.Forall₂ Instr.Houses is js) :
    writtenRegs .virtual js = writtenRegs .virtual is := by
  induction housed with
  | nil => rfl
  | cons houses _ ih => rw [writtenRegsCons, writtenRegsCons, Instr.housesWritten houses, ih]

namespace Check.Frame

variable {f : Frame}

theorem housedConstants {is js : List Instr} (housed : List.Forall₂ Instr.Houses is js)
    (constants : ∀ j ∈ js, ∀ v ∈ j.writtenReg .virtual,
      f.constants[v]? = if j.opcode = .loadI then some j.constant else none) :
    ∀ i ∈ is, ∀ v ∈ i.writtenReg .virtual, i.opcode = .loadI → f.constants[v]? = some i.constant := by
  induction housed with
  | nil => simp
  | @cons i j is js houses _ ih =>
    intro i' inside v written opcode
    rcases List.mem_cons.mp inside with rfl | later
    · have known := constants j List.mem_cons_self v (Instr.housesWritten houses ▸ written)
      rwa [houses.opcode, houses.constant, if_pos opcode] at known
    · exact ih (fun j inside => constants j (List.mem_cons_of_mem _ inside)) i' later v written opcode

def Seats (f : Frame) (es : List (Handle × Instr)) : Prop :=
  ∀ before h i after, es = before ++ (h, i) :: after → i.inserted = false →
    ∃ s, f.Accepts {} before s ∧
      (∀ slot ∈ i.opcode.reads,
        ∃ p, f.Placed i slot p ∧ f.Carries (s.content p) (i.operand slot).virtual) ∧
      ∀ slot, i.opcode.writes = some slot → ∃ p, f.Placed i slot p

theorem acceptsSplit {es ds : List (Handle × Instr)} {s u : State} (accepts : f.Accepts s (es ++ ds) u) :
    ∃ t, f.Accepts s es t ∧ f.Accepts t ds u := by
  induction es generalizing s with
  | nil => exact ⟨s, .nil s, accepts⟩
  | cons e es ih =>
    cases accepts with
    | cons first rest =>
      obtain ⟨t, left, right⟩ := ih rest
      exact ⟨t, .cons first left, right⟩

theorem acceptsSeats {es : List (Handle × Instr)} {t : State} (accepts : f.Accepts {} es t) :
    f.Seats es := by
  rintro before h i after rfl given
  obtain ⟨s, earlier, later⟩ := acceptsSplit accepts
  cases later with
  | cons first rest =>
    have found := (runGivenOk given).mp first
    refine ⟨s, earlier, found.reads, fun slot writes => ?_⟩
    obtain ⟨p, placed, -⟩ := found.written slot writes
    exact ⟨p, placed⟩

theorem runWithin {s t : State} {h : Handle} {i : Instr} {slot : Slot} (ok : f.run s h i = .ok t)
    (used : slot ∈ i.opcode.reads ∨ i.opcode.writes = some slot) :
    ∃ p, (i.operand slot).physical = some p ∧ p.number < f.numRegisters := by
  cases inserted : i.inserted with
  | false =>
    have found := (runGivenOk inserted).mp ok
    have placed : ∃ p, f.Placed i slot p := by
      rcases used with read | written
      · obtain ⟨p, placed, -⟩ := found.reads slot read
        exact ⟨p, placed⟩
      · obtain ⟨p, placed, -⟩ := found.written slot written
        exact ⟨p, placed⟩
    obtain ⟨p, physical, -, below⟩ := placed
    exact ⟨p, physical, Nat.lt_of_lt_of_le below (Nat.le_add_right _ _)⟩
  | true =>
    cases insertedOfRun inserted ok with
    | constant opcode target below =>
      simp only [opcode, Opcode.reads, Opcode.writes, List.not_mem_nil, false_or,
        Option.some.injEq] at used
      subst used
      exact ⟨_, target, below⟩
    | load opcode source bounded address content target below =>
      simp only [opcode, Opcode.reads, Opcode.writes, List.mem_singleton, Option.some.injEq] at used
      rcases used with rfl | rfl
      · exact ⟨_, source, bounded⟩
      · exact ⟨_, target, below⟩
    | store opcode source below target bounded address content =>
      simp only [opcode, Opcode.reads, Opcode.writes, List.mem_cons, List.not_mem_nil, or_false,
        reduceCtorEq] at used
      rcases used with rfl | rfl
      · exact ⟨_, source, below⟩
      · exact ⟨_, target, bounded⟩

theorem acceptsWithin {es : List (Handle × Instr)} {s t : State} (accepts : f.Accepts s es t) :
    ∀ e ∈ es, ∀ slot, slot ∈ e.2.opcode.reads ∨ e.2.opcode.writes = some slot →
      ∃ p, (e.2.operand slot).physical = some p ∧ p.number < f.numRegisters := by
  induction accepts with
  | nil => simp
  | cons first _ ih => exact List.forall_mem_cons.mpr ⟨fun slot => runWithin first, ih⟩

end Check.Frame

namespace Allocation
open Check (Frame)
open Renaming (Step Renames)

section
variable {b : Block} {es : List (Handle × Instr)} {steps : List Step} {k : Nat}
  {summary : Renaming.Summary} {options : Options} {output : Output}

theorem initialMirrors {f : Frame} (plan : Plan)
    (defined : ∀ v, v ∈ f.defined → v ∈ writtenRegs .virtual (steps.map Step.instr)) :
    Mirrors f plan (writtenRegs .virtual (steps.map Step.instr)) (Ledger.initial plan steps) {} := by
  refine ⟨.nil _, fun p o held => ?_, fun v => ⟨?_, ?_, fun inside _ => defined _ inside⟩, ?_⟩
  · simp [Ledger.initial] at held
  · simp [Ledger.initial]
  · simp [Ledger.initial]
  · simp

theorem allocatedAccepts (spells : b.Spells (steps.map fun s => (s.handle, s.instr)))
    (renames : Renames 0 es steps) (given : ∀ e ∈ es, e.2.inserted = false)
    (numbered : (Renaming.envAbove steps).minted ≤ summary.numVirtual)
    (ok : (b.allocateRenamed summary k options).result = .ok output) :
    List.Forall₂ Instr.Houses (steps.map Step.instr) (b.allocateRenamed summary k options).block.given ∧
      ∃ c, (Frame.ofBlock (b.allocateRenamed summary k options).block output.usable
          output.address).Accepts {} (b.allocateRenamed summary k options).block.entries c ∧
        ∀ a ∈ c.memory, ∃ j < output.slots, a.toNat = options.base.toNat + slotSize * j := by
  obtain ⟨plan, m, made, walks, stage, spelled, rfl⟩ := allocatedWalk spells renames numbered ok
  have entries := Chain.spellsEntries spelled
  have start := initialStage plan summary.numVirtual steps
  obtain ⟨js, done, housed⟩ := walksGiven renames given start numbered walks
  have same : (b.allocateRenamed summary k options).block.given = js := by
    rw [Block.given, Chain.values, entries]
    exact done
  rw [same, entries]
  refine ⟨housed, ?_⟩
  have describes := Frame.ofBlockDescribes (b := (b.allocateRenamed summary k options).block)
    plan.usable plan.address (by
      rw [same, housedWritten housed]
      exact Renaming.renamesSingle renames)
  rw [same] at describes
  have fits : Fits (Frame.ofBlock (b.allocateRenamed summary k options).block plan.usable plan.address)
      plan := ⟨rfl, rfl, (planSound made).address⟩
  obtain ⟨c, mirrors⟩ := walksMirrors fits renames given start numbered
    (Frame.housedConstants housed describes.constants)
    (initialMirrors plan fun v inside => housedWritten housed ▸ (describes.defined v).mp inside) walks
  refine ⟨c, mirrors.accepts, fun a inside => ?_⟩
  obtain ⟨j, less, rfl⟩ := mirrors.memory a inside
  have room := stage.sound.saved.room (List.ne_nil_of_length_pos (Nat.zero_lt_of_lt less))
  have before := Nat.mul_le_mul_left slotSize (Nat.le_of_lt less)
  rw [← planOptions made]
  exact ⟨j, less, slotNumber (by omega)⟩

theorem allocatedWithin (spells : b.Spells (steps.map fun s => (s.handle, s.instr)))
    (renames : Renames 0 es steps) (given : ∀ e ∈ es, e.2.inserted = false)
    (numbered : (Renaming.envAbove steps).minted ≤ summary.numVirtual)
    (ok : (b.allocateRenamed summary k options).result = .ok output) :
    ∀ i ∈ (b.allocateRenamed summary k options).block.values, ∀ slot,
      slot ∈ i.opcode.reads ∨ i.opcode.writes = some slot →
        ∃ p, (i.operand slot).physical = some p ∧ p.number < k := by
  obtain ⟨-, c, accepts, -⟩ := allocatedAccepts spells renames given numbered ok
  obtain ⟨plan, m, made, -, -, -, same⟩ := allocatedWalk spells renames numbered ok
  have few : output.usable + (if output.address.isSome then 1 else 0) ≤ k := by
    rw [same]
    obtain ⟨-, ⟨-, rfl⟩ | ⟨-, two, rfl⟩⟩ := planMade made
    · exact Nat.le_refl _
    · dsimp only
      split <;> omega
  intro i inside slot used
  obtain ⟨e, listed, rfl⟩ := List.mem_map.mp inside
  obtain ⟨p, physical, below⟩ := Frame.acceptsWithin accepts e listed slot used
  exact ⟨p, physical, Nat.lt_of_lt_of_le below few⟩

theorem allocatedFew (spells : b.Spells (steps.map fun s => (s.handle, s.instr)))
    (renames : Renames 0 es steps)
    (numbered : (Renaming.envAbove steps).minted ≤ summary.numVirtual)
    (ok : (b.allocateRenamed summary k options).result = .ok output) :
    (Frame.ofBlock (b.allocateRenamed summary k options).block output.usable
      output.address).reserveRegisters = .ok () := by
  obtain ⟨plan, m, made, -, -, -, rfl⟩ := allocatedWalk spells renames numbered ok
  have few := (planSound made).few
  have count (f : Frame) (usable : f.usable ≤ 64) : f.reserveRegisters = .ok () := by
    have bound : f.numRegisters ≤ 65 := by
      rw [Frame.numRegisters]
      split <;> omega
    rw [Frame.reserveRegisters, if_pos (by omega), reserve, if_pos (by omega)]
  exact count _ few

end

theorem allocatedPassesCheck (b : Block) (sound : b.Sound)
    (given : ∀ i ∈ b.values, i.inserted = false) (short : 11 * b.size < 4294967295) :
    ∃ renamed, b.rename.result = .ok renamed ∧
      ∀ (summary : Renaming.Summary) (k : Nat) (options : Options) (output : Output),
        renamed.numVirtual ≤ summary.numVirtual →
        (b.rename.block.allocateRenamed summary k options).result = .ok output →
        (b.rename.block.allocateRenamed summary k options).block.check output.usable output.address =
            .ok [] ∧
          (Frame.ofBlock (b.rename.block.allocateRenamed summary k options).block output.usable
            output.address).Seats (b.rename.block.allocateRenamed summary k options).block.entries := by
  obtain ⟨steps, renamed, renames, spells⟩ := b.renameOk sound given (by omega)
  refine ⟨_, renamed, fun summary k options output numbered ok => ?_⟩
  have given' : ∀ e ∈ b.entries, e.2.inserted = false :=
    fun e inside => given e.2 (List.mem_map_of_mem inside)
  obtain ⟨-, c, accepts, -⟩ := allocatedAccepts spells renames given' numbered ok
  refine ⟨?_, Frame.acceptsSeats accepts⟩
  simp only [Block.check, allocatedFew spells renames numbered ok, bind, Except.bind]
  rw [Frame.acceptsErrors.mpr ⟨c, accepts⟩]

theorem spilledSumPassesCheck :
    (spilledSum.rename.block.allocateRenamed ⟨0, 9, 8⟩ 3 {}).result =
        .ok ⟨2, some ⟨2⟩, 2, ⟨3, 2, 2, 1, 9⟩⟩ ∧
      (spilledSum.rename.block.allocateRenamed ⟨0, 9, 8⟩ 3 {}).block.check 2 (some ⟨2⟩) = .ok [] := by
  have ok : (spilledSum.rename.block.allocateRenamed ⟨0, 9, 8⟩ 3 {}).result =
      .ok ⟨2, some ⟨2⟩, 2, ⟨3, 2, 2, 1, 9⟩⟩ := by decide +kernel
  obtain ⟨renamed, ran, checks⟩ := allocatedPassesCheck spilledSum (Chain.ofListSound _)
    (by decide +kernel) (by decide +kernel)
  have few : renamed.numVirtual ≤ 9 := by
    have summary : spilledSum.rename.result = .ok ⟨4, 6, 4⟩ := by decide +kernel
    rw [summary] at ran
    cases ran
    decide
  exact ⟨ok, (checks _ 3 {} _ few ok).1⟩

end Allocation
end Straightline
