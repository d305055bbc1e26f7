import Mathlib.Data.List.Perm.Subperm
import Straightline.Proofs.Renaming.LiveSets
import Straightline.Proofs.Source.Printing

/-! How many registers are needed at once. The ranges open at a position have different source
registers, and where a register is written that has no open range it is one more. So no more are
needed than there are source registers in the block, and the count kept along the way is the largest
that the live sets show. -/
namespace Straightline

def Instr.sourceRegs (i : Instr) : List (Option SourceReg) :=
  i.opcode.slots.map fun slot => (i.operand slot).source

namespace Liveness

def setAt (sets : List LiveSet) (p : Nat) : LiveSet := sets[p]?.getD ∅

/-- The registers wanted at once at an instruction: those live into it and, if it writes a register,
that one with those live behind it. -/
def wantedAround (into behind : LiveSet) : Option (Option SourceReg) → Nat
  | some r => max into.size (behind.insert r).size
  | none => into.size

def wanted (sets : List LiveSet) (is : List Instr) (p : Nat) : Nat :=
  wantedAround (setAt sets p) (setAt sets (p + 1)) (is[p]?.bind (Instr.writtenReg .source))

theorem wantedHead (set : LiveSet) (sets : List LiveSet) (i : Instr) (is : List Instr) :
    wanted (set :: sets) (i :: is) 0 =
      wantedAround set (sets.head?.getD ∅) (i.writtenReg .source) := by
  rw [List.head?_eq_getElem?]
  rfl

theorem liveSetsRelabels {is js : List Instr} (alike : List.Forall₂ Instr.Relabels is js) :
    liveSets js = liveSets is := by
  induction alike with
  | nil => rfl
  | @cons i j is js relabels _ ih =>
    have reads : reads j = reads i := Renaming.relabelsReadRegs relabels
    have writes : writes j = writes i := by
      have toList : ∀ x : Instr, writes x = (x.writtenReg .source).toList :=
        fun x => (Option.toList_map ..).symm
      rw [toList, toList, Renaming.relabelsWrittenReg relabels]
    simp only [liveSets, liveInto, reads, writes, ih]

end Liveness

namespace Renaming

section
variable {names : List (Option SourceReg)} {env : Env} {r : Option SourceReg}

def Env.Within (env : Env) (names : List (Option SourceReg)) : Prop :=
  ∀ r : Option SourceReg, env.ranges[r]? ≠ none → r ∈ names

theorem keysWithin (within : env.Within names) : env.ranges.keys ⊆ names := by
  intro s listed
  rw [Std.TreeMap.mem_keys, Std.TreeMap.mem_iff_isSome_getElem?, Option.isSome_iff_ne_none] at listed
  exact within s listed

theorem liveWithin (within : env.Within names) : env.ranges.size ≤ names.length := by
  have few := (List.subperm_of_subset Std.TreeMap.nodup_keys (keysWithin within)).length_le
  rwa [Std.TreeMap.length_keys] at few

theorem demandWithin (sound : env.Sound) (within : env.Within names)
    {written : Option (Option SourceReg)} (named : ∀ r, written = some r → r ∈ names) :
    env.demand written ≤ names.length := by
  cases written with
  | none => exact Nat.zero_le _
  | some r =>
    rw [Env.demand]
    split
    · rename_i missing
      have outside : r ∉ env.ranges.keys := by
        rw [Std.TreeMap.mem_keys, Std.TreeMap.mem_iff_isSome_getElem?, missing]
        exact Bool.false_ne_true
      have distinct : (r :: env.ranges.keys).Nodup :=
        List.nodup_cons.mpr ⟨outside, Std.TreeMap.nodup_keys⟩
      have inside : r :: env.ranges.keys ⊆ names :=
        List.cons_subset.mpr ⟨named r rfl, keysWithin within⟩
      have few := (List.subperm_of_subset distinct inside).length_le
      rwa [List.length_cons, Std.TreeMap.length_keys, ← sound.live] at few
    · exact Nat.zero_le _

end

section
variable {names : List (Option SourceReg)} {position : Nat} {below above : Env} {i j : Instr}
  {es : List (Handle × Instr)} {steps : List Step}

theorem passesWithin (pass : Passes position below i j above)
    (named : ∀ slot ∈ i.opcode.slots, (i.operand slot).source ∈ names)
    (within : below.Within names) : above.Within names := by
  intro r found
  obtain ⟨v, range⟩ := Option.ne_none_iff_exists'.mp found
  rcases pass.origin r v range with ⟨old, -⟩ | ⟨read, -⟩
  · exact within r (by simp [old])
  · obtain ⟨slot, inside, rfl⟩ := Instr.memReadRegs.mp read
    exact named slot (List.mem_append_left _ inside)

theorem renamesWithin (renames : Renames position es steps)
    (named : ∀ e ∈ es, ∀ slot ∈ e.2.opcode.slots, (e.2.operand slot).source ∈ names) :
    (envAbove steps).Within names ∧ (envAbove steps).maxLive ≤ names.length ∧
      (envAbove steps).maxPressure ≤ names.length := by
  induction renames with
  | nil => exact ⟨fun r found => by simp [envAbove] at found, Nat.zero_le _, Nat.zero_le _⟩
  | @cons position h i j env es steps inRange pass rest ih =>
    obtain ⟨here, later⟩ := List.forall_mem_cons.mp named
    obtain ⟨within, live, pressure⟩ := ih later
    have above := passesWithin pass here within
    have written : ∀ r, i.writtenReg .source = some r → r ∈ names := by
      intro r written
      obtain ⟨slot, writes, rfl⟩ := Instr.memWrittenReg.mp written
      exact here slot (Opcode.memSlots.mpr (.inr writes))
    refine ⟨above, ?_, ?_⟩
    · rw [envAboveCons, pass.peak]
      exact Nat.max_le.mpr ⟨live, liveWithin above⟩
    · rw [envAboveCons, pass.pressure]
      exact Nat.max_le.mpr ⟨pressure, demandWithin (renamesSound rest) within written⟩

theorem pressureWithin (renames : Renames position es steps)
    (named : ∀ e ∈ es, ∀ slot ∈ e.2.opcode.slots, (e.2.operand slot).source ∈ names) :
    (envAbove steps).summary.maxPressure ≤ names.length := by
  obtain ⟨-, live, pressure⟩ := renamesWithin renames named
  exact Nat.max_le.mpr ⟨pressure, live⟩

theorem demandBound (sound : below.Sound) (written : Option (Option SourceReg)) :
    below.demand written ≤ below.maxLive + 1 := by
  have counted := sound.counted
  have live := sound.live
  cases written with
  | none => exact Nat.zero_le _
  | some r =>
    rw [Env.demand]
    split <;> omega

theorem renamesDemand (renames : Renames position es steps) :
    (envAbove steps).maxPressure ≤ (envAbove steps).maxLive + 1 := by
  induction renames with
  | nil => exact Nat.zero_le _
  | @cons position h i j env es steps inRange pass rest ih =>
    have here := demandBound (renamesSound rest) (i.writtenReg .source)
    have grows := pass.maxLive
    rw [envAboveCons, pass.pressure]
    exact Nat.max_le.mpr ⟨ih.trans (Nat.succ_le_succ grows), here.trans (Nat.succ_le_succ grows)⟩

theorem passesWanted (pass : Passes position below i j above) (sound : below.Sound)
    {into behind : Liveness.LiveSet} (lists : above.Lists into) (listsBelow : below.Lists behind) :
    above.summary.maxPressure = max (Liveness.wantedAround into behind (i.writtenReg .source))
      below.summary.maxPressure := by
  have size := listsSize lists
  have sizeBelow := listsSize listsBelow
  have counted := sound.counted
  have live := sound.live
  simp only [Env.summary, pass.pressure, pass.peak]
  cases i.writtenReg .source with
  | none =>
    simp only [Liveness.wantedAround, Env.demand]
    omega
  | some r =>
    have open' : behind.contains r = true ↔ below.ranges[r]? ≠ none := by
      rw [Std.TreeSet.contains_iff_mem, listsBelow r, Option.isSome_iff_ne_none]
    simp only [Liveness.wantedAround, Env.demand, Std.TreeSet.size_insert, open']
    by_cases missing : below.ranges[r]? = none
    · simp only [missing, ne_eq, not_true_eq_false, if_false, if_true]
      omega
    · -- A write that closes a range is not looked at: the ranges below it were counted before.
      simp only [missing, ne_eq, not_false_eq_true, if_false, if_true]
      omega

theorem renamesWanted (renames : Renames position es steps) :
    (envAbove steps).summary.maxPressure = ((List.range es.length).map
      (Liveness.wanted (Liveness.liveSets (steps.map Step.instr)) (es.map Prod.snd))).foldl max 0 := by
  have lists := renamesLists renames
  induction renames with
  | nil => rfl
  | @cons position h i j env es steps inRange pass rest ih =>
    cases lists with
    | cons here later =>
      rw [envAboveCons, passesWanted pass (renamesSound rest) here (listsHead later), ih later,
        List.length_cons, List.range_succ_eq_map, List.map_cons, maxCons, List.map_map]
      simp only [List.map_cons, Liveness.liveSets, Liveness.wantedHead]
      rfl

end

/-- The pressure of a block is the most registers that its live sets show to be wanted at once: those
live into an instruction, or those live behind it together with the one that it writes. The count of
open ranges is at every instruction the number of registers live into it. -/
theorem pressureFromLiveSets (b : Block) (sound : b.Sound)
    (given : ∀ i ∈ b.values, i.inserted = false) (short : 3 * b.size < 4294967294) :
    ∃ summary, b.rename.result = .ok summary ∧ b.rename.block.liveSets = b.liveSets ∧
      summary.maxPressure =
        ((List.range b.size).map (Liveness.wanted b.liveSets b.values)).foldl max 0 ∧
      summary.maxLive = b.maxLive ∧ summary.maxLive ≤ summary.maxPressure ∧
      summary.maxPressure ≤ summary.maxLive + 1 ∧
      summary.maxPressure ≤ (b.values.flatMap Instr.sourceRegs).toFinset.card ∧
      b.rename.steps.map (fun s => s.env.live) = b.liveSets.map (·.size) := by
  obtain ⟨steps, ok, renames⟩ := b.stepsOk sound given (by omega)
  obtain ⟨renamed, spells⟩ := Block.renameSteps sound ok renames
  have all := renamedGiven renames (fun e inside => given e.2 (List.mem_map_of_mem inside)) spells
  have same : Liveness.liveSets (steps.map Step.instr) = b.liveSets := by
    rw [Block.liveSets, Block.givenAll given]
    exact Liveness.liveSetsRelabels ((renamesAnnotates renames).imp fun _ _ notes => notes.toRelabels)
  have size : b.entries.length = b.size := (Chain.spellsSize (Chain.soundSpells sound)).symm
  refine ⟨_, renamed, ?_, ?_, ?_, Nat.le_max_right _ _, ?_, ?_, ?_⟩
  · rw [Block.liveSets, all, same]
  · rw [renamesWanted renames, size, same]
    rfl
  · rw [Block.maxLive, ← same]
    exact renamesMaxLive renames
  · exact Nat.max_le.mpr ⟨renamesDemand renames, Nat.le_succ _⟩
  · rw [List.card_toFinset]
    refine pressureWithin renames fun e inside slot used => List.mem_dedup.mpr ?_
    exact List.mem_flatMap.mpr ⟨e.2, List.mem_map_of_mem inside, List.mem_map_of_mem used⟩
  · have traced : b.rename.steps = steps := by simp only [Block.rename, ok]
    rw [traced, renamesCounts renames, same]

def unreadAcross : Block :=
  let r := Reg.ofNat? .source
  -- Two registers are live across the third instruction, and nothing reads what it writes.
  .ofList [.loadI 1 8 (r 0), .loadI 2 4 (r 1), .loadI 3 2 (r 2), .ternary 4 .add (r 0) (r 1) (r 0),
    .store 5 (r 0) (r 1)]

theorem unreadAcrossPressure :
    ∃ summary, unreadAcross.rename.result = .ok summary ∧ summary.maxPressure = 3 ∧
      summary.maxLive = 2 ∧ (unreadAcross.values.flatMap Instr.sourceRegs).toFinset.card = 3 := by
  obtain ⟨summary, renamed, -, pressure, live, -⟩ := pressureFromLiveSets unreadAcross
    (Chain.ofListSound _) (by decide +kernel) (by decide +kernel)
  have most : ((List.range unreadAcross.size).map
      (Liveness.wanted unreadAcross.liveSets unreadAcross.values)).foldl max 0 = 3 := by decide +kernel
  have names : (unreadAcross.values.flatMap Instr.sourceRegs).toFinset.card = 3 := by decide +kernel
  have two : unreadAcross.maxLive = 2 := by decide +kernel
  exact ⟨summary, renamed, pressure.trans most, live.trans two, names⟩

end Renaming
end Straightline
