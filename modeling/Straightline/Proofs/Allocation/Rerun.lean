import Straightline.Proofs.Allocation.Accepted
import Straightline.Proofs.Allocation.Accounting
import Straightline.Proofs.Allocation.Threshold
import Straightline.Proofs.Renaming.Pressure

/-! Allocating what was allocated before. The code names only the registers that allocation was given,
so when its text is read again no more of them are needed at once, and the second allocation has
nothing to spill. At most ten instructions are inserted for each one, so there are still numbers enough
for the virtual registers. -/
namespace Straightline

theorem Instr.shownPhysical (i : Instr) (slot : Slot) :
    i.shown .physical slot = (i.operand slot).physical.map Reg.number := by
  obtain ⟨line, opcode, constant, first, second, third, inserted⟩ := i
  cases inserted <;> rfl

namespace Allocation
open Renaming (Env Step Renames envAbove)

section
variable {b : Block} {k : Nat} {options : Options} {output : Output} {steps : List Step}

theorem physicalTextWithin {c : Block} (sound : c.Sound)
    (within : ∀ i ∈ c.values, ∀ slot ∈ i.opcode.slots,
      ∃ p, (i.operand slot).physical = some p ∧ p.number < k) :
    ∃ d, Source.parse (c.text .physical) = .ok d ∧ d.Sound ∧ d.size = c.size ∧
      ∀ j ∈ d.values, j.inserted = false ∧ ∀ slot ∈ j.opcode.slots,
        (j.operand slot).source ∈ (List.range k).map (Reg.ofNat? .source) := by
  have shown : ∀ i ∈ c.values, ∀ slot ∈ i.opcode.slots,
      ∃ x, i.shown .physical slot = some x ∧ x < k := by
    intro i inside slot used
    obtain ⟨p, physical, below⟩ := within i inside slot used
    exact ⟨p.number, by rw [Instr.shownPhysical, physical, Option.map_some], below⟩
  have shows : ∀ i ∈ c.values, i.Shows .physical := by
    intro i inside slot used
    obtain ⟨x, found, -⟩ := shown i inside slot used
    rw [found]
    rfl
  have sound' := Chain.ofListSound (c.values.mapIdx fun p i => i.reread .physical (p + 1))
  refine ⟨_, Source.parseText c shows, sound', ?_, ?_⟩
  · rw [← Chain.soundLength sound', Chain.ofListValues, List.length_mapIdx, Chain.soundLength sound]
  · rw [Chain.ofListValues]
    intro j inside
    obtain ⟨p, bound, same⟩ := List.mem_mapIdx.mp inside
    have listed := List.getElem_mem bound
    generalize c.values[p] = i at same listed
    subst same
    refine ⟨rfl, fun slot used => ?_⟩
    obtain ⟨x, found, below⟩ := shown i listed slot used
    obtain ⟨r, operand, number⟩ := Instr.rereadShown (i := i) used found
    rw [Instr.rereadSlot, operand]
    exact List.mem_map.mpr ⟨x, List.mem_range.mpr below, by rw [← number, Reg.ofNatNumber]⟩

theorem fewNamesAllocate {d : Block} {names : List (Option SourceReg)} (sound : d.Sound)
    (given : ∀ i ∈ d.values, i.inserted = false) (short : 3 * d.size < 4294967295)
    (named : ∀ i ∈ d.values, ∀ slot ∈ i.opcode.slots, (i.operand slot).source ∈ names)
    (enough : names.length ≤ k) (some : k ≠ 0) (few : k ≤ 64) :
    ∃ summary, d.rename.result = .ok summary ∧ summary.maxPressure ≤ k ∧
      ∀ options, (d.allocate k options).2.result = .ok ⟨k, none, 0, {}⟩ ∧
        (d.allocate k options).2.block.numInserted = 0 := by
  obtain ⟨steps, renamed, renames, spells⟩ := Block.renameOk d sound given short
  have given' : ∀ e ∈ d.entries, e.2.inserted = false :=
    fun e inside => given e.2 (List.mem_map_of_mem inside)
  have roomy : (envAbove steps).summary.maxPressure ≤ k := by
    have pressure := Renaming.pressureWithin renames
      fun e inside => named e.2 (List.mem_map_of_mem inside)
    omega
  refine ⟨_, renamed, roomy, fun options => ?_⟩
  rw [allocateOk renamed]
  obtain ⟨output, ok⟩ := roomyAllocates spells renames few
    (Renaming.renamedNames sound renames short) some roomy
  obtain ⟨rfl, none⟩ := roomyOutput spells renames given' ok roomy
  exact ⟨ok, none⟩

end

theorem allocatedCodeFits (b : Block) (sound : b.Sound) (given : ∀ i ∈ b.values, i.inserted = false)
    (short : 121 * b.size < 4294967295) (k : Nat) (options : Options) (output : Output)
    (ok : (b.allocate k options).2.result = .ok output) :
    ∃ d summary, Source.parse ((b.allocate k options).2.block.text .physical) = .ok d ∧
      d.rename.result = .ok summary ∧ summary.maxPressure ≤ k ∧
      ∀ options' : Options, (d.allocate k options').2.result = .ok ⟨k, none, 0, {}⟩ ∧
        (d.allocate k options').2.block.numInserted = 0 := by
  obtain ⟨steps, renamed, renames, spells⟩ := b.renameOk sound given (by omega)
  have given' : ∀ e ∈ b.entries, e.2.inserted = false :=
    fun e inside => given e.2 (List.mem_map_of_mem inside)
  rw [allocateOk renamed] at ok ⊢
  obtain ⟨plan, m, made, -, -, spelled, -⟩ := allocatedWalk spells renames (Nat.le_refl _) ok
  have few := (planMade made).1
  have some : k ≠ 0 := by
    intro zero
    subst zero
    simp [Plan.make] at made
  have within := allocatedWithin spells renames given' (Nat.le_refl _) ok
  obtain ⟨d, parsed, sound', size, named⟩ := physicalTextWithin (Chain.spellsSound spelled)
    fun i inside slot used => within i inside slot (Opcode.memSlots.mp used)
  have bound := allocatedSize spells renames (Renaming.renamedNames sound renames (by omega)) k options
  rw [Renaming.renamedSize sound renames spells] at bound
  obtain ⟨summary, renamed', fits, runs⟩ := fewNamesAllocate sound' (fun j inside => (named j inside).1)
    (by omega) (fun j inside => (named j inside).2) (by simp) some few
  exact ⟨d, summary, parsed, renamed', fits, runs⟩

theorem spilledSumCodeFits :
    (spilledSum.allocate 3 {}).2.result = .ok ⟨2, some ⟨2⟩, 2, ⟨3, 2, 2, 1, 9⟩⟩ ∧
      ∃ d, Source.parse ((spilledSum.allocate 3 {}).2.block.text .physical) = .ok d ∧
        (d.allocate 3 {window := 0}).2.result = .ok ⟨3, none, 0, {}⟩ := by
  have ok : (spilledSum.allocate 3 {}).2.result = .ok ⟨2, some ⟨2⟩, 2, ⟨3, 2, 2, 1, 9⟩⟩ := by
    decide +kernel
  obtain ⟨d, summary, parsed, -, -, runs⟩ := allocatedCodeFits spilledSum (Chain.ofListSound _)
    (by decide +kernel) (by decide +kernel) 3 {} _ ok
  exact ⟨ok, d, parsed, (runs {window := 0}).1⟩

end Allocation
end Straightline
