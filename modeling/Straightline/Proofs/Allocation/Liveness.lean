import Straightline.Proofs.Allocation.Additions
import Straightline.Proofs.Renaming.LiveSets

/-! Live sets before and after allocation. Neither way of finding them looks at physical registers
or at inserted code, and allocation changes nothing else, so it leaves the live sets of the block as
they are, whether it ends or stops. -/
namespace Straightline

theorem Instr.readOperandsBare (i : Instr) :
    i.bare.readOperands = i.readOperands.map Operand.bare := by
  unfold readOperands
  rw [List.map_map]
  exact List.map_congr_left fun slot _ => i.operandBare slot

theorem Instr.writtenOperandBare (i : Instr) :
    i.bare.writtenOperand = i.writtenOperand.map Operand.bare := by
  unfold writtenOperand
  rw [Option.map_map]
  exact Option.map_congr fun slot _ => i.operandBare slot

namespace Liveness

theorem readsBare (i : Instr) : reads i.bare = reads i := by
  rw [reads, Instr.readOperandsBare, List.map_map]
  rfl

theorem writesBare (i : Instr) : writes i.bare = writes i := by
  rw [writes, Instr.writtenOperandBare, Option.toList_map, List.map_map]
  rfl

theorem liveSetsBare (is : List Instr) : liveSets (is.map Instr.bare) = liveSets is := by
  induction is with
  | nil => rfl
  | cons i is ih => simp only [List.map_cons, liveSets, liveInto, readsBare, writesBare, ih]

theorem exposedBare (is : List Instr) : exposedReads (is.map Instr.bare) = exposedReads is := by
  simp only [exposedReads, List.zipIdx_map, List.foldl_map, Prod.map_fst, Prod.map_snd, readsBare,
    writesBare]
  rfl

theorem Outlook.advanceBare (o : Outlook) (i : Instr) : o.advance i.bare = o.advance i := by
  rw [advance, Instr.readOperandsBare, Instr.writtenOperandBare, Option.toList_map, ← List.map_append,
    List.foldl_map]
  rfl

theorem aheadBare (is : List Instr) (o : Outlook) (position : Nat) :
    liveSetsAhead o position (is.map Instr.bare) = liveSetsAhead o position is := by
  induction is generalizing o position with
  | nil => rfl
  | cons i is ih =>
    simp only [List.map_cons, liveSetsAhead, Outlook.liveInto, readsBare, Outlook.advanceBare, ih]

end Liveness

theorem Block.liveSetsBare {b d : Block} (same : d.given.map Instr.bare = b.given.map Instr.bare) :
    d.liveSets = b.liveSets ∧ d.liveSetsFromNextUses = b.liveSetsFromNextUses := by
  constructor
  · rw [liveSets, ← Liveness.liveSetsBare, same, Liveness.liveSetsBare]
    rfl
  · rw [liveSetsFromNextUses, ← Liveness.aheadBare, ← Liveness.exposedBare, same, Liveness.aheadBare,
      Liveness.exposedBare]
    rfl

namespace Allocation

section
variable {b : Block} (sound : b.Sound) (given : ∀ i ∈ b.values, i.inserted = false)
  (summary : Renaming.Summary) (k : Nat) (options : Options)
include sound given

theorem allocateBare :
    (b.allocateRenamed summary k options).block.given.map Instr.bare = b.given.map Instr.bare := by
  obtain ⟨es, spells, grows⟩ := allocateGrown sound summary k options
  obtain ⟨-, filled⟩ := growsGiven (fun e inside => given e.2 (List.mem_map_of_mem inside)) grows
  have same : ∀ {is js : List Instr}, List.Forall₂ Instr.Fills is js →
      js.map Instr.bare = is.map Instr.bare := by
    intro is js filled
    induction filled with
    | nil => rfl
    | cons fills rest ih => simp only [List.map_cons, fills.bare, ih]
  rw [Block.givenAll given, Block.given, Chain.values, Chain.spellsEntries spells, List.filter_map]
  exact same filled

theorem allocateHandles (none : (b.allocateRenamed summary k options).block.numInserted = 0) :
    (b.allocateRenamed summary k options).block.handles = b.handles := by
  obtain ⟨es, spells, grows⟩ := allocateGrown sound summary k options
  obtain ⟨handles, -⟩ := growsGiven (fun e inside => given e.2 (List.mem_map_of_mem inside)) grows
  rw [Block.numInserted, Chain.values, Chain.spellsEntries spells, List.countP_map,
    List.countP_eq_zero] at none
  have all : es.filter (fun e => !e.2.inserted) = es :=
    List.filter_eq_self.mpr fun e inside => by simpa using none e inside
  rw [all] at handles
  rw [Chain.spellsHandles spells, Chain.spellsHandles (Chain.soundSpells sound)]
  exact handles

end

/-- Renaming, the backward equations and the next uses left on the slots agree on what is live, and
allocation changes none of it, whether it ends or stops. -/
theorem liveSetsAgree (b : Block) (sound : b.Sound) (given : ∀ i ∈ b.values, i.inserted = false)
    (short : 11 * b.size < 4294967295) :
    ∃ summary, b.rename.result = .ok summary ∧ summary.maxLive = b.rename.block.maxLive ∧
      b.rename.block.liveSetsFromNextUses.map (·.toList) = b.rename.block.liveSets.map (·.toList) ∧
      ∀ (k : Nat) (options : Options),
        (b.rename.block.allocateRenamed summary k options).block.liveSets =
            b.rename.block.liveSets ∧
          (b.rename.block.allocateRenamed summary k options).block.liveSetsFromNextUses =
            b.rename.block.liveSetsFromNextUses := by
  obtain ⟨steps, renamed, renames, spells⟩ := b.renameOk sound given (by omega)
  have values := Renaming.renamedValues spells
  have given' : ∀ i ∈ b.rename.block.values, i.inserted = false := by
    rw [values]
    exact Renaming.renamesGiven renames fun e inside => given e.2 (List.mem_map_of_mem inside)
  have all : b.rename.block.given = steps.map Renaming.Step.instr := by
    rw [Block.given, ← values]
    exact List.filter_eq_self.mpr fun i inside => by simp [given' i inside]
  refine ⟨_, renamed, ?_, ?_, fun k options => ?_⟩
  · rw [Block.maxLive, Block.liveSets, all]
    exact Renaming.renamesMaxLive renames
  · rw [Block.liveSetsFromNextUses, Block.liveSets, all]
    exact Renaming.renamesAlike renames
  · exact Block.liveSetsBare (allocateBare (Chain.spellsSound spells) given' _ k options)

theorem spilledSumLiveSetsAgree :
    spilledSum.rename.block.maxLive = 4 ∧
      (spilledSum.rename.block.allocateRenamed ⟨4, 6, 4⟩ 2 {}).result =
        .error (.error (.tooManyLive 4 5)) ∧
      (spilledSum.rename.block.allocateRenamed ⟨4, 6, 4⟩ 2 {}).block.numInserted = 8 ∧
      (spilledSum.rename.block.allocateRenamed ⟨4, 6, 4⟩ 2 {}).block.liveSetsFromNextUses.map
          (·.toList) =
        spilledSum.rename.block.liveSets.map (·.toList) := by
  obtain ⟨summary, renamed, maxLive, alike, allocated⟩ := liveSetsAgree spilledSum
    (Chain.ofListSound _) (by decide +kernel) (by decide +kernel)
  have ran : spilledSum.rename.result = .ok ⟨4, 6, 4⟩ := by decide +kernel
  obtain rfl := Except.ok.inj (renamed.symm.trans ran)
  refine ⟨maxLive.symm, by decide +kernel, by decide +kernel, ?_⟩
  rw [(allocated 2 {}).2, alike]

end Allocation
end Straightline
