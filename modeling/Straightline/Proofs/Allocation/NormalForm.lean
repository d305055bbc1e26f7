import Straightline.Proofs.Allocation.Accepted
import Straightline.Proofs.Allocation.Additions
import Straightline.Proofs.Allocation.Twins

/-! The text of a renamed block says all that allocation depends on. Read again and renamed, it has
the same ranges, so the two blocks are twins: they print the same text, and their allocations end with
the same output or for the same reason. The code is the same too, unless the block had physical registers
before and an allocation that stops leaves some of them. -/
namespace Straightline

theorem Instr.sameText {n : Naming} {i j : Instr} (opcode : j.opcode = i.opcode)
    (inserted : j.inserted = i.inserted)
    (constant : i.opcode.hasConstant = true → j.constant = i.constant)
    (registers : ∀ slot ∈ i.opcode.slots,
      (j.operand slot).text (if i.inserted then .physical else n) =
        (i.operand slot).text (if i.inserted then .physical else n)) : j.text n = i.text n := by
  unfold text
  rw [opcode, inserted]
  cases op : i.opcode <;> rw [op] at constant registers <;> dsimp only
  case output => rw [constant rfl]
  case loadI => rw [constant rfl, registers .third (by decide)]
  case load => rw [registers .first (by decide), registers .third (by decide)]
  case store => rw [registers .first (by decide), registers .third (by decide)]
  all_goals
    rw [registers .first (by decide), registers .second (by decide), registers .third (by decide)]

namespace Block

def Placed (b : Block) : Prop :=
  ∃ i ∈ b.values, ∃ slot ∈ i.opcode.slots, (i.operand slot).physical ≠ none

instance (b : Block) : Decidable b.Placed :=
  inferInstanceAs (Decidable (∃ i ∈ b.values, ∃ slot ∈ i.opcode.slots, (i.operand slot).physical ≠ none))

variable {stale : Prop} {pairs : List (Handle × Handle)} {b d : Block} {n : Naming}

theorem twinsKin (twins : b.Twins stale pairs d) : List.Forall₂ (Instr.Kin stale) b.values d.values := by
  obtain ⟨ts, first, second, kin, -⟩ := twins
  rw [Chain.spellsValues first, Chain.spellsValues second, List.map_map, List.map_map,
    List.forall₂_map_left_iff, List.forall₂_map_right_iff, List.forall₂_same]
  exact kin

theorem twinsText (twins : b.Twins stale pairs d)
    (registers : ∀ i ∈ b.values, ∀ j ∈ d.values, i.Kin stale j → ∀ slot ∈ i.opcode.slots,
      (j.operand slot).text (if i.inserted then .physical else n) =
        (i.operand slot).text (if i.inserted then .physical else n)) : d.text n = b.text n := by
  obtain ⟨ts, first, second, kin, -⟩ := twins
  rw [Chain.spellsValues first, Chain.spellsValues second, List.map_map, List.map_map] at registers
  rw [Block.text, Block.text, Chain.spellsValues first, Chain.spellsValues second, List.map_map,
    List.map_map, List.map_map, List.map_map]
  refine congrArg String.join (List.map_congr_left fun t inside => ?_)
  have text : t.2.2.text n = t.1.2.text n :=
    Instr.sameText (kin t inside).opcode (kin t inside).inserted (kin t inside).constant
      (registers _ (List.mem_map_of_mem inside) _ (List.mem_map_of_mem inside) (kin t inside))
  simp only [Function.comp_apply, text]

theorem twinsPhysical (twins : b.Twins stale pairs d)
    (placed : stale → ∀ j ∈ d.values, ∀ slot ∈ j.opcode.slots, (j.operand slot).physical ≠ none) :
    d.text .physical = b.text .physical := by
  refine twinsText twins fun i _ j inside kin slot used => ?_
  have same : (j.operand slot).physical = (i.operand slot).physical := by
    rcases kin.physical slot used with same | ⟨old, -, none⟩
    · exact same
    · exact absurd none (placed old j inside slot (by rw [kin.opcode]; exact used))
  have naming : (if i.inserted then Naming.physical else .physical) = .physical := ite_self _
  rw [naming]
  simp only [Operand.text, Operand.reg, same]

theorem twinsVirtual (twins : b.Twins stale pairs d) (given : ∀ i ∈ b.values, i.inserted = false) :
    d.text .virtual = b.text .virtual := by
  refine twinsText twins fun i inside j _ kin slot used => ?_
  have naming : (if i.inserted then Naming.physical else .virtual) = .virtual := by
    rw [given i inside]
    rfl
  rw [naming]
  simp only [Operand.text, Operand.reg, kin.virtual slot used]

end Block

namespace Renaming

variable {stale : Prop} {position : Nat} {es : List (Handle × Instr)} {steps steps' : List Step}
  {s s' : Step}

theorem renamesShows (renames : Renames position es steps)
    (given : ∀ e ∈ es, e.2.inserted = false) : ∀ j ∈ steps.map Step.instr, j.Shows .virtual := by
  have plain := renamesGiven renames given
  induction renames with
  | nil => simp
  | @cons position h i j env es steps inRange pass rest ih =>
    rw [List.map_cons, List.forall_mem_cons] at plain ⊢
    refine ⟨fun slot used => ?_, ih (fun e inside => given e (List.mem_cons_of_mem _ inside)) plain.2⟩
    rw [pass.relabels.opcode] at used
    have named : ∃ v, (j.operand slot).virtual = some v := by
      rcases Opcode.memSlots.mp used with read | written
      · obtain ⟨v, virtual, -⟩ := pass.read slot read
        exact ⟨v, virtual⟩
      · obtain ⟨v, virtual, -⟩ := pass.written slot written
        exact ⟨v, virtual⟩
    obtain ⟨v, virtual⟩ := named
    rw [Instr.shownGiven plain.1, Operand.reg, virtual]
    rfl

theorem repeatsKin (repeats : s.Repeats s') (given : s.instr.inserted = false)
    (physical : ∀ slot ∈ s.instr.opcode.slots, (s.instr.operand slot).physical = none ∨ stale) :
    s.instr.Kin stale s'.instr := by
  obtain ⟨same, line, i, echoes, relabels⟩ := repeats
  refine ⟨same, by rw [relabels.inserted, echoes.given, given],
    fun carries => by rw [relabels.constant, echoes.constant carries], fun slot used => ?_⟩
  have none : (s'.instr.operand slot).physical = none := by
    obtain ⟨r, operand, -⟩ := echoes.registers slot used
    rw [relabels.physical, operand]
  rcases physical slot used with missing | old
  · exact .inl (none.trans missing.symm)
  · exact .inr ⟨old, relabels.inserted.trans echoes.given, none⟩

theorem repeatsTwins {b d : Block} (repeats : List.Forall₂ Step.Repeats steps steps')
    (spells : b.Spells (steps.map fun s => (s.handle, s.instr)))
    (spells' : d.Spells (steps'.map fun s => (s.handle, s.instr)))
    (given : ∀ s ∈ steps, s.instr.inserted = false)
    (physical : ∀ s ∈ steps, ∀ slot ∈ s.instr.opcode.slots,
      (s.instr.operand slot).physical = none ∨ stale) :
    b.Twins stale (b.handles.zip d.handles) d := by
  have lengths := repeats.length_eq
  obtain ⟨zs, rfl, rfl, alike⟩ : ∃ zs : List (Step × Step), steps = zs.map Prod.fst ∧
      steps' = zs.map Prod.snd ∧ ∀ z ∈ zs, z.1.Repeats z.2 := by
    refine ⟨steps.zip steps', (List.map_fst_zip (Nat.le_of_eq lengths)).symm,
      (List.map_snd_zip (Nat.le_of_eq lengths.symm)).symm, fun z inside => ?_⟩
    exact (List.forall₂_iff_zip.mp repeats).2 inside
  rw [List.map_map] at spells spells'
  refine ⟨zs.map fun z => ((z.1.handle, z.1.instr), (z.2.handle, z.2.instr)), ?_, ?_, ?_, ?_⟩
  · rw [List.map_map]
    exact spells
  · rw [List.map_map]
    exact spells'
  · intro t inside
    obtain ⟨z, listed, rfl⟩ := List.mem_map.mp inside
    exact repeatsKin (alike z listed) (given _ (List.mem_map_of_mem listed))
      (physical _ (List.mem_map_of_mem listed))
  · intro e inside
    rw [Chain.spellsHandles spells, Chain.spellsHandles spells', List.map_map, List.map_map,
      List.zip_map', List.mem_map] at inside
    obtain ⟨z, listed, rfl⟩ := inside
    exact ⟨_, List.mem_map_of_mem listed, rfl⟩

theorem renamesPhysical (renames : Renames position es steps)
    (missing : ∀ e ∈ es, ∀ slot ∈ e.2.opcode.slots, (e.2.operand slot).physical = none) :
    ∀ s ∈ steps, ∀ slot ∈ s.instr.opcode.slots, (s.instr.operand slot).physical = none := by
  induction renames with
  | nil => simp
  | @cons position h i j env es steps inRange pass rest ih =>
    obtain ⟨here, missing⟩ := List.forall_mem_cons.mp missing
    refine List.forall_mem_cons.mpr ⟨fun slot used => ?_, ih missing⟩
    rw [pass.relabels.opcode] at used
    exact (pass.relabels.physical slot).trans (here slot used)

theorem echoesReread {d : Block} (shows : ∀ j ∈ steps.map Step.instr, j.Shows .virtual)
    (values : d.values = (steps.map Step.instr).mapIdx fun p j => j.reread .virtual (p + 1)) :
    List.Forall₂ (fun s e => ∃ line, s.instr.Echoes .virtual line e.2) steps d.entries := by
  have rows : List.Forall₂ (fun (j i : Instr) => ∃ line, j.Echoes .virtual line i)
      (steps.map Step.instr) d.values := by
    rw [values, List.forall₂_iff_get]
    refine ⟨by simp, fun p _ _ => ⟨p + 1, ?_⟩⟩
    rw [List.get_eq_getElem, List.get_eq_getElem, List.getElem_mapIdx]
    exact Instr.rereadEchoes (shows _ (List.getElem_mem _)) (p + 1)
  rwa [Chain.values, List.forall₂_map_left_iff, List.forall₂_map_right_iff] at rows

structure Passed (b d : Block) (steps steps' : List Step) : Prop where
  renames : Renames 0 b.entries steps
  result : b.rename.result = .ok (envAbove steps).summary
  spells : b.rename.block.Spells (steps.map fun s => (s.handle, s.instr))
  parsed : Source.parse (b.rename.block.text .virtual) = .ok d
  given' : ∀ e ∈ d.entries, e.2.inserted = false
  renames' : Renames 0 d.entries steps'
  result' : d.rename.result = .ok (envAbove steps).summary
  spells' : d.rename.block.Spells (steps'.map fun s => (s.handle, s.instr))
  minted' : (envAbove steps').minted = (envAbove steps).minted
  repeats : List.Forall₂ Step.Repeats steps steps'

theorem passedOk (b : Block) (sound : b.Sound) (given : ∀ i ∈ b.values, i.inserted = false)
    (short : 3 * b.size < 4294967295) : ∃ d steps steps', Passed b d steps steps' := by
  have given' : ∀ e ∈ b.entries, e.2.inserted = false :=
    fun e inside => given e.2 (List.mem_map_of_mem inside)
  have limit : positionLimit = 4294967295 ∧ Naming.virtual.limit = 4294967295 := ⟨rfl, rfl⟩
  have size := Chain.spellsSize (Chain.soundSpells sound)
  obtain ⟨steps, ok, renames⟩ := b.stepsOk sound given short
  obtain ⟨result, spells⟩ := Block.renameSteps sound ok renames
  have shows := renamesShows renames given'
  have parsed := Source.parseText b.rename.block (renamedValues spells ▸ shows)
  rw [renamedValues spells] at parsed
  generalize again : ((steps.map Step.instr).mapIdx fun p j => j.reread .virtual (p + 1)) = is
    at parsed
  have values : (Chain.ofList is).values =
      (steps.map Step.instr).mapIdx fun p j => j.reread .virtual (p + 1) := by
    rw [Chain.ofListValues, again]
  have sound' := Chain.ofListSound is
  generalize Chain.ofList is = d at parsed values sound'
  have echoes := echoesReread shows values
  have given'' : ∀ i ∈ d.values, i.inserted = false := by
    rw [values]
    intro i inside
    obtain ⟨p, -, rfl⟩ := List.mem_mapIdx.mp inside
    rfl
  have lengths : steps.length = b.entries.length := by
    simpa using congrArg List.length (renamesHandles renames)
  have size' : d.size = b.size := by
    rw [Chain.spellsSize (Chain.soundSpells sound'), ← echoes.length_eq, size, lengths]
  obtain ⟨steps', ok', restates, repeats⟩ := stepsRepeat given' 0 (by omega) (by omega) ok echoes
  obtain ⟨others, ok'', renames'⟩ := Block.stepsOk d sound' given'' (size' ▸ short)
  obtain rfl : steps' = others := Except.ok.inj (ok'.symm.trans ok'')
  obtain ⟨result', spells'⟩ := Block.renameSteps sound' ok' renames'
  rw [restatesSummary restates] at result'
  exact ⟨d, steps, steps', renames, result, spells, parsed,
    fun e inside => given'' e.2 (List.mem_map_of_mem inside), renames', result', spells',
    restates.minted, repeats⟩

theorem passedTwins {b d : Block} (passed : Passed b d steps steps')
    (given : ∀ j ∈ steps.map Step.instr, j.inserted = false) :
    ∃ pairs, b.rename.block.Twins b.Placed pairs d.rename.block ∧
      b.rename.block.handles = pairs.map Prod.fst ∧ d.rename.block.handles = pairs.map Prod.snd := by
  have lengths : b.rename.block.handles.length = d.rename.block.handles.length := by
    rw [Chain.spellsHandles passed.spells, Chain.spellsHandles passed.spells']
    simp only [List.length_map]
    exact passed.repeats.length_eq
  refine ⟨b.rename.block.handles.zip d.rename.block.handles, ?_,
    (List.map_fst_zip (Nat.le_of_eq lengths)).symm,
    (List.map_snd_zip (Nat.le_of_eq lengths.symm)).symm⟩
  refine repeatsTwins passed.repeats passed.spells passed.spells'
    (fun s inside => given _ (List.mem_map_of_mem inside)) fun s inside slot used => ?_
  by_cases placed : b.Placed
  · exact .inr placed
  · refine .inl (renamesPhysical passed.renames (fun e listed slot used => ?_) s inside slot used)
    by_contra physical
    exact placed ⟨e.2, List.mem_map_of_mem listed, slot, used, physical⟩

end Renaming

namespace Allocation
open Renaming

theorem mapErrorOk {α ε δ : Type} {x : Except ε α} {f : ε → δ} {a : α} (ok : x.mapError f = .ok a) :
    x = .ok a := by
  cases x with
  | ok b =>
    cases ok
    rfl
  | error e => cases ok

/-- The text of a renamed block is read as a block that is renamed and allocated as it is. The code is
the same, but where an allocation stops early, registers that it did not come to are as they were
before, and those that were read from a text have none. -/
theorem virtualTextIsNormal (b : Block) (sound : b.Sound)
    (given : ∀ i ∈ b.values, i.inserted = false) (short : 11 * b.size < 4294967295) :
    ∃ summary d, b.rename.result = .ok summary ∧
      Source.parse (b.rename.block.text .virtual) = .ok d ∧ d.rename.result = .ok summary ∧
      List.Forall₂ Instr.SameRanges b.rename.block.values d.rename.block.values ∧
      d.rename.block.text .virtual = b.rename.block.text .virtual ∧
      ∀ (k : Nat) (options : Options),
        (d.allocate k options).2.result.mapError Stop.unplaced =
            (b.allocate k options).2.result.mapError Stop.unplaced ∧
          List.Forall₂ (Instr.Kin b.Placed) (b.allocate k options).2.block.values
            (d.allocate k options).2.block.values ∧
          (¬ b.Placed ∨ (∃ output, (b.allocate k options).2.result = .ok output) →
            (d.allocate k options).2.block.text .physical =
              (b.allocate k options).2.block.text .physical) := by
  obtain ⟨d, steps, steps', passed⟩ := passedOk b sound given (by omega)
  have given' : ∀ j ∈ steps.map Step.instr, j.inserted = false :=
    renamesGiven passed.renames fun e inside => given e.2 (List.mem_map_of_mem inside)
  obtain ⟨pairs, twins, handles, handles'⟩ := passedTwins passed given'
  refine ⟨_, d, passed.result, passed.parsed, passed.result',
    (Block.twinsKin twins).imp fun _ _ kin => kin.toSameRanges,
    Block.twinsVirtual twins (renamedValues passed.spells ▸ given'), fun k options => ?_⟩
  obtain ⟨same, ended⟩ := twinsAllocate twins handles handles' (envAbove steps).summary k options
  rw [allocateOk passed.result, allocateOk passed.result']
  refine ⟨same, Block.twinsKin ended, fun either =>
    Block.twinsPhysical ended fun placed j inside slot used => ?_⟩
  obtain ⟨output, ok⟩ := either.resolve_left (not_not_intro placed)
  rw [ok] at same
  obtain ⟨p, physical, -⟩ := allocatedWithin passed.spells' passed.renames' passed.given'
    (Nat.le_of_eq passed.minted') (mapErrorOk same) j inside slot (Opcode.memSlots.mp used)
  rw [physical]
  exact Option.some_ne_none p

theorem spilledSumTextIsNormal :
    ∃ d, Source.parse (spilledSum.rename.block.text .virtual) = .ok d ∧
      (d.allocate 3 {}).2.result = .ok ⟨2, some ⟨2⟩, 2, ⟨3, 2, 2, 1, 9⟩⟩ ∧
      (d.allocate 3 {}).2.block.text .physical = (spilledSum.allocate 3 {}).2.block.text .physical ∧
      (d.allocate 2 {}).2.result.mapError Stop.unplaced = .error (.error (.tooManyLive 0 0)) ∧
      (d.allocate 2 {}).2.block.text .physical =
        (spilledSum.allocate 2 {}).2.block.text .physical := by
  obtain ⟨summary, d, -, parsed, -, -, -, runs⟩ := virtualTextIsNormal spilledSum
    (Chain.ofListSound _) (by decide +kernel) (by decide +kernel)
  have unplaced : ¬ spilledSum.Placed := by decide +kernel
  have spills : (spilledSum.allocate 3 {}).2.result =
      .ok ⟨2, some ⟨2⟩, 2, ⟨3, 2, 2, 1, 9⟩⟩ := by decide +kernel
  have stops : (spilledSum.allocate 2 {}).2.result.mapError Stop.unplaced =
      .error (.error (.tooManyLive 0 0)) := by decide +kernel
  obtain ⟨same, -, code⟩ := runs 3 {}
  obtain ⟨same', -, code'⟩ := runs 2 {}
  rw [spills] at same
  exact ⟨d, parsed, mapErrorOk same, code (.inr ⟨_, spills⟩), same'.trans stops, code' (.inl unplaced)⟩

/-- With sixty-four registers the sum has its place, and the block keeps it when it is allocated onto
two. What is read from its text has no register to keep. -/
theorem spilledSumKeepsRegisters :
    let b := (spilledSum.allocate 64 {}).2.block
    b.Sound ∧ (∀ i ∈ b.values, i.inserted = false) ∧ 11 * b.size < 4294967295 ∧
      ∃ d, Source.parse (b.rename.block.text .virtual) = .ok d ∧
        (b.allocate 2 {}).2.result = .error (.error (.tooManyLive 4 5)) ∧
        (d.allocate 2 {}).2.result = .error (.error (.tooManyLive 4 5)) ∧
        (d.allocate 2 {}).2.block.text .physical ≠ (b.allocate 2 {}).2.block.text .physical := by
  have sound : (spilledSum.allocate 64 {}).2.block.Sound := by
    obtain ⟨steps, renamed, -, spells⟩ := spilledSum.renameOk (Chain.ofListSound _) (by decide +kernel)
      (by decide +kernel)
    rw [allocateOk renamed]
    obtain ⟨es, laid, -⟩ := allocateGrown (Chain.spellsSound spells) (Renaming.envAbove steps).summary 64 {}
    exact Chain.spellsSound laid
  have facts :
      let b := (spilledSum.allocate 64 {}).2.block
      let d : Block := .ofList (b.rename.block.values.mapIdx fun p i => i.reread .virtual (p + 1))
      (∀ i ∈ b.values, i.inserted = false) ∧ 11 * b.size < 4294967295 ∧
        (∀ i ∈ b.rename.block.values, i.Shows .virtual) ∧
        (b.allocate 2 {}).2.result = .error (.error (.tooManyLive 4 5)) ∧
        (d.allocate 2 {}).2.result = .error (.error (.tooManyLive 4 5)) ∧
        (d.allocate 2 {}).2.block.text .physical ≠ (b.allocate 2 {}).2.block.text .physical := by
    decide +kernel
  obtain ⟨given, short, shows, stops, stops', differ⟩ := facts
  exact ⟨sound, given, short, _, Source.parseText _ shows, stops, stops', differ⟩

end Allocation
end Straightline
