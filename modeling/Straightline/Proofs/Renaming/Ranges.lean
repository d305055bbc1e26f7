import Straightline.Proofs.Renaming.Pass

/-! The live ranges of a block. Renaming succeeds on given instructions as long as their virtual
registers can be numbered. Every virtual register is written at most once, and not after it is read.
A slot has no next use exactly when its range is not open below the instruction. -/
namespace Straightline

namespace Renaming

def Env.Marked (env : Env) : Prop :=
  ∀ r : Option SourceReg, env.nextUse r = .never ↔ env.ranges[r]? = none

structure Flows (below above : Env) (j : Instr) : Prop where
  read : ∀ slot ∈ j.opcode.reads, ∃ v, (j.operand slot).virtual = some v ∧ above.Live v ∧
    ((j.operand slot).nextUse = .never ↔ ¬ below.Live v)
  written : ∀ slot, j.opcode.writes = some slot → ∃ v, (j.operand slot).virtual = some v ∧
    ¬ above.Live v ∧ ((j.operand slot).nextUse = .never ↔ ¬ below.Live v) ∧
    (below.Live v ∨ below.minted ≤ v.number ∧ below.live + 1 ≤ above.maxPressure)
  kept : ∀ v, below.Live v → above.Live v ∨ j.writtenReg .virtual = some (some v)
  origin : ∀ v, above.Live v → below.Live v ∨
    some v ∈ j.readRegs .virtual ∧ below.minted ≤ v.number

section

variable {position : Nat} {below above : Env} {i j : Instr}

theorem passesMarked (pass : Passes position below i j above) (marked : below.Marked)
    (inRange : position < positionLimit) : above.Marked := by
  intro r
  rw [Env.nextUseEq, pass.reads inRange r]
  by_cases read : r ∈ i.readRegs .source
  · obtain ⟨slot, inside, rfl⟩ : ∃ slot ∈ i.opcode.reads, (i.operand slot).source = r :=
      Instr.memReadRegs.mp read
    obtain ⟨v, -, range, -⟩ := pass.read slot inside
    simp [read, range]
  · rw [if_neg read]
    by_cases written : i.writtenReg .source = some r
    · rw [if_pos written]
      refine ⟨fun _ => ?_, fun _ => rfl⟩
      cases range : above.ranges[r]? with
      | none => rfl
      | some v =>
        rcases pass.origin r v range with ⟨-, differ⟩ | ⟨inside, -⟩
        · exact absurd written differ
        · exact absurd inside read
    · have same : above.ranges[r]? = below.ranges[r]? := by
        cases range : below.ranges[r]? with
        | some v => exact pass.kept r v range written
        | none =>
          cases range' : above.ranges[r]? with
          | none => rfl
          | some v =>
            rcases pass.origin r v range' with ⟨old, -⟩ | ⟨inside, -⟩
            · rw [range] at old
              contradiction
            · exact absurd inside read
      rw [if_neg written, same, ← Env.nextUseEq]
      exact marked r

theorem passesRead (pass : Passes position below i j above) (sound : below.Sound)
    (marked : below.Marked) {slot : Slot} (inside : slot ∈ i.opcode.reads) :
    ∃ v, (j.operand slot).virtual = some v ∧ above.Live v ∧
      ((j.operand slot).nextUse = .never ↔ ¬ below.Live v) := by
  obtain ⟨v, virtual, range, next⟩ := pass.read slot inside
  refine ⟨v, virtual, ⟨_, range⟩, ?_⟩
  rw [next]
  rcases pass.origin _ v range with ⟨old, differ⟩ | ⟨-, new⟩
  · rw [if_neg differ, marked, old]
    exact ⟨fun none => by simp at none, fun dead => absurd ⟨_, old⟩ dead⟩
  · have dead : ¬ below.Live v := fun ⟨r, found⟩ => by
      have := sound.bounded r v found
      omega
    refine ⟨fun _ => dead, fun _ => ?_⟩
    split
    · rfl
    · rename_i differ
      rw [marked]
      cases old : below.ranges[(i.operand slot).source]? with
      | none => rfl
      | some w =>
        have same := pass.kept _ w old differ
        rw [range] at same
        obtain rfl := Option.some.inj same
        exact absurd ⟨_, old⟩ dead

theorem passesWritten (pass : Passes position below i j above) (sound : below.Sound)
    (marked : below.Marked) {slot : Slot} (writes : i.opcode.writes = some slot) :
    ∃ v, (j.operand slot).virtual = some v ∧ ¬ above.Live v ∧
      ((j.operand slot).nextUse = .never ↔ ¬ below.Live v) ∧
      (below.Live v ∨ below.minted ≤ v.number ∧ below.live + 1 ≤ above.maxPressure) := by
  obtain ⟨v, virtual, next, -, apart, value⟩ := pass.written slot writes
  have written : i.writtenReg .source = some (i.operand slot).source :=
    Instr.writtenRegSome writes
  refine ⟨v, virtual, ?_, ?_, ?_⟩
  · rintro ⟨r, found⟩
    rcases apart r v found with ⟨old, differ⟩ | less
    · rcases value with there | ⟨-, number, -⟩
      · rw [sound.distinct r _ v old there] at differ
        exact differ written
      · have := sound.bounded r v old
        omega
    · omega
  · rw [next, marked]
    rcases value with there | ⟨free, number, -⟩
    · rw [there]
      exact ⟨fun none => by simp at none, fun dead => absurd ⟨_, there⟩ dead⟩
    · refine ⟨fun _ ⟨r, found⟩ => ?_, fun _ => free⟩
      have := sound.bounded r v found
      omega
  · rcases value with there | ⟨-, number, pressure⟩
    · exact .inl ⟨_, there⟩
    · exact .inr ⟨by omega, pressure⟩

theorem passesFlows (pass : Passes position below i j above) (sound : below.Sound)
    (marked : below.Marked) : Flows below above j := by
  refine ⟨?_, ?_, ?_, ?_⟩
  · rw [pass.relabels.opcode]
    exact fun slot inside => passesRead pass sound marked inside
  · rw [pass.relabels.opcode]
    exact fun slot writes => passesWritten pass sound marked writes
  · rintro v ⟨r, found⟩
    by_cases written : i.writtenReg .source = some r
    · right
      obtain ⟨slot, writes, rfl⟩ : ∃ slot, i.opcode.writes = some slot ∧
          (i.operand slot).source = r := Instr.memWrittenReg.mp written
      obtain ⟨w, virtual, -, -, -, value⟩ := pass.written slot writes
      have same : w = v := by
        rcases value with there | ⟨free, -⟩
        · exact Option.some.inj (there.symm.trans found)
        · rw [found] at free
          contradiction
      rw [Instr.writtenRegSome (pass.relabels.opcode ▸ writes), Operand.reg, virtual, same]
    · exact .inl ⟨r, pass.kept r v found written⟩
  · rintro v ⟨r, found⟩
    rcases pass.origin r v found with ⟨old, -⟩ | ⟨inside, new⟩
    · exact .inl ⟨r, old⟩
    · refine .inr ⟨?_, new⟩
      obtain ⟨slot, read, rfl⟩ : ∃ slot ∈ i.opcode.reads, (i.operand slot).source = r :=
        Instr.memReadRegs.mp inside
      obtain ⟨w, virtual, range, -⟩ := pass.read slot read
      have same : w = v := Option.some.inj (range.symm.trans found)
      rw [Instr.memReadRegs, pass.relabels.opcode]
      exact ⟨slot, read, by rw [Operand.reg, virtual, same]⟩

theorem flowsRead {slot : Slot} {v : VirtualReg} (flows : Flows below above j)
    (inside : slot ∈ j.opcode.reads) (virtual : (j.operand slot).virtual = some v) :
    above.Live v ∧ ((j.operand slot).nextUse = .never ↔ ¬ below.Live v) := by
  obtain ⟨w, virtual', facts⟩ := flows.read slot inside
  rw [virtual] at virtual'
  obtain rfl := Option.some.inj virtual'
  exact facts

theorem flowsWritten {slot : Slot} {v : VirtualReg} (flows : Flows below above j)
    (writes : j.opcode.writes = some slot) (virtual : (j.operand slot).virtual = some v) :
    ¬ above.Live v ∧ ((j.operand slot).nextUse = .never ↔ ¬ below.Live v) ∧
      (below.Live v ∨ below.minted ≤ v.number ∧ below.live + 1 ≤ above.maxPressure) := by
  obtain ⟨w, virtual', facts⟩ := flows.written slot writes
  rw [virtual] at virtual'
  obtain rfl := Option.some.inj virtual'
  exact facts

end

inductive Renames : Nat → List (Handle × Instr) → List Step → Prop where
  | nil (position : Nat) : Renames position [] []
  | cons {position : Nat} {h : Handle} {i j : Instr} {env : Env} {es : List (Handle × Instr)}
      {steps : List Step} (inRange : position < positionLimit)
      (pass : Passes position (envAbove steps) i j env)
      (rest : Renames (position + 1) es steps) :
      Renames position ((h, i) :: es) (⟨position, h, j, env⟩ :: steps)

theorem envAboveCons (s : Step) (steps : List Step) : envAbove (s :: steps) = s.env := rfl

theorem emptySound : ({} : Env).Sound := ⟨by simp, by simp, rfl, by simp⟩

theorem renamesSound {position : Nat} {es : List (Handle × Instr)} {steps : List Step}
    (renames : Renames position es steps) : (envAbove steps).Sound := by
  cases renames with
  | nil => exact emptySound
  | cons inRange pass rest => exact pass.sound

theorem renamesMarked {position : Nat} {es : List (Handle × Instr)} {steps : List Step}
    (renames : Renames position es steps) : (envAbove steps).Marked := by
  induction renames with
  | nil => intro r; simp [envAbove, Env.nextUseEq]
  | cons inRange pass rest ih => exact passesMarked pass ih inRange

theorem renamesFlows {position next : Nat} {i j : Instr} {env : Env} {es : List (Handle × Instr)}
    {steps : List Step} (pass : Passes position (envAbove steps) i j env)
    (rest : Renames next es steps) : Flows (envAbove steps) env j :=
  passesFlows pass (renamesSound rest) (renamesMarked rest)

theorem renamesMinted {position : Nat} {es : List (Handle × Instr)} {steps : List Step}
    (renames : Renames position es steps) : (envAbove steps).minted ≤ 3 * es.length := by
  induction renames with
  | nil => simp [envAbove]
  | cons inRange pass rest ih =>
    have := pass.minted
    simp only [envAboveCons, List.length_cons]
    omega

theorem stepsOk {es : List (Handle × Instr)} (given : ∀ e ∈ es, e.2.inserted = false)
    (position : Nat) (short : 3 * es.length ≤ Naming.virtual.limit)
    (inRange : position + es.length ≤ positionLimit) :
    ∃ steps, stepsFrom position es = .ok steps ∧ Renames position es steps := by
  induction es generalizing position with
  | nil => exact ⟨[], rfl, .nil position⟩
  | cons e es ih =>
    obtain ⟨h, i⟩ := e
    simp only [List.length_cons] at short inRange
    obtain ⟨steps, below, renames⟩ := ih (fun e inside => given e (by simp [inside])) (position + 1)
      (by omega) (by omega)
    have minted := renamesMinted renames
    obtain ⟨j, env, ok, pass⟩ := renameInstrOk position (given (h, i) (by simp)) (renamesSound renames)
      (by omega) (by omega)
    refine ⟨⟨position, h, j, env⟩ :: steps, ?_, .cons (by omega) pass renames⟩
    simp only [stepsFrom, below, bind, Except.bind, ok]

theorem renamesHandles {position : Nat} {es : List (Handle × Instr)} {steps : List Step}
    (renames : Renames position es steps) : steps.map Step.handle = es.map Prod.fst := by
  induction renames with
  | nil => rfl
  | cons inRange pass rest ih => simp [ih]

theorem renamesWritten {position : Nat} {es : List (Handle × Instr)} {steps : List Step}
    (renames : Renames position es steps) {v : Option VirtualReg}
    (written : v ∈ writtenRegs .virtual (steps.map Step.instr)) :
    ∃ w, v = some w ∧ w.number < (envAbove steps).minted ∧ ¬ (envAbove steps).Live w := by
  induction renames with
  | nil => simp [writtenRegs] at written
  | @cons position h i j env es steps inRange pass rest ih =>
    have flows := renamesFlows pass rest
    rw [List.map_cons, writtenRegsCons, List.mem_append] at written
    have later : v ∈ writtenRegs .virtual (steps.map Step.instr) →
        ∃ w, v = some w ∧ w.number < env.minted ∧ ¬ env.Live w := by
      intro inside
      obtain ⟨w, rfl, below, dead⟩ := ih inside
      have grows := pass.minted
      refine ⟨w, rfl, by omega, fun live => ?_⟩
      rcases flows.origin w live with old | ⟨-, new⟩
      · exact dead old
      · omega
    rcases written with here | inside
    · obtain ⟨slot, writes, rfl⟩ : ∃ slot, j.opcode.writes = some slot ∧
          (j.operand slot).virtual = v :=
        Instr.memWrittenReg.mp (Option.mem_toList.mp here)
      obtain ⟨w, virtual, dead, -, -⟩ := flows.written slot writes
      obtain ⟨w', virtual', -, below, -⟩ := pass.written slot (pass.relabels.opcode ▸ writes)
      rw [virtual] at virtual'
      cases virtual'
      exact ⟨w, virtual, below, dead⟩
    · exact later inside

theorem renamesSingle {position : Nat} {es : List (Handle × Instr)} {steps : List Step}
    (renames : Renames position es steps) :
    (writtenRegs .virtual (steps.map Step.instr)).Nodup := by
  induction renames with
  | nil => simp [writtenRegs]
  | @cons position h i j env es steps inRange pass rest ih =>
    have flows := renamesFlows pass rest
    rw [List.map_cons, writtenRegsCons]
    cases here : j.writtenReg .virtual with
    | none => exact ih
    | some u =>
      refine List.nodup_cons.mpr ⟨fun inside => ?_, ih⟩
      obtain ⟨w, rfl, below, dead⟩ := renamesWritten rest inside
      obtain ⟨slot, writes, virtual⟩ : ∃ slot, j.opcode.writes = some slot ∧
          (j.operand slot).virtual = some w := Instr.memWrittenReg.mp here
      obtain ⟨-, -, live | ⟨new, -⟩⟩ := flowsWritten flows writes virtual
      · exact dead live
      · omega

theorem renamesApart {position : Nat} {es : List (Handle × Instr)} {s : Step} {steps : List Step}
    (renames : Renames position es (s :: steps)) {v : VirtualReg}
    (later : some v ∈ writtenRegs .virtual (steps.map Step.instr)) :
    some v ∉ s.instr.readRegs .virtual ∧ s.instr.writtenReg .virtual ≠ some (some v) := by
  have single := renamesSingle renames
  obtain ⟨w, same, -, dead⟩ := renamesWritten renames (v := some v) (by
    rw [List.map_cons, writtenRegsCons]
    exact List.mem_append_right _ later)
  obtain rfl := Option.some.inj same
  refine ⟨fun read => ?_, fun here => ?_⟩
  · obtain ⟨slot, inside, virtual⟩ := Instr.memReadRegs.mp read
    cases renames with
    | cons inRange pass rest => exact dead (flowsRead (renamesFlows pass rest) inside virtual).1
  · rw [List.map_cons, writtenRegsCons, here] at single
    exact (List.nodup_cons.mp single).1 later

section
variable {position : Nat} {b d : Block} {es : List (Handle × Instr)} {steps : List Step}

theorem renamesGiven (renames : Renames position es steps)
    (given : ∀ e ∈ es, e.2.inserted = false) : ∀ j ∈ steps.map Step.instr, j.inserted = false := by
  induction renames with
  | nil => simp
  | @cons position h i j env es steps inRange pass rest ih =>
    have later := ih fun e inside => given e (List.mem_cons_of_mem _ inside)
    rw [List.map_cons, List.forall_mem_cons]
    exact ⟨pass.relabels.inserted.trans (given (h, i) List.mem_cons_self), later⟩

theorem renamedValues (spells : d.Spells (steps.map fun s => (s.handle, s.instr))) :
    d.values = steps.map Step.instr := by
  rw [Chain.values, Chain.spellsEntries spells, List.map_map]
  rfl

theorem renamedGiven (renames : Renames position es steps) (given : ∀ e ∈ es, e.2.inserted = false)
    (spells : d.Spells (steps.map fun s => (s.handle, s.instr))) : d.given = steps.map Step.instr := by
  have values := renamedValues spells
  rw [Block.givenAll (values ▸ renamesGiven renames given), values]

theorem renamedHandles (sound : b.Sound) (renames : Renames position b.entries steps)
    (spells : d.Spells (steps.map fun s => (s.handle, s.instr))) : d.handles = b.handles := by
  rw [Chain.spellsHandles spells, Chain.spellsHandles (Chain.soundSpells sound), List.map_map,
    ← renamesHandles renames]
  rfl

theorem renamedSize (sound : b.Sound) (renames : Renames position b.entries steps)
    (spells : d.Spells (steps.map fun s => (s.handle, s.instr))) : d.size = b.size := by
  rw [(Chain.spellsSound spells).size, renamedHandles sound renames spells, ← sound.size]

theorem renamedNames (sound : b.Sound) (renames : Renames position b.entries steps)
    (short : 3 * b.size < 4294967295) : (envAbove steps).minted ≤ Naming.virtual.limit := by
  have minted := renamesMinted renames
  have limit : Naming.virtual.limit = 4294967295 := rfl
  rw [← Chain.spellsSize (Chain.soundSpells sound)] at minted
  omega

end
end Renaming

theorem Block.renameSteps {b : Block} {steps : List Renaming.Step} (sound : b.Sound)
    (ok : Renaming.stepsFrom 0 b.entries = .ok steps) (renames : Renaming.Renames 0 b.entries steps) :
    b.rename.result = .ok (Renaming.envAbove steps).summary ∧
      b.rename.block.Spells (steps.map fun s => (s.handle, s.instr)) := by
  have handles := Renaming.renamesHandles renames
  refine ⟨by simp only [Block.rename, ok], ?_⟩
  simp only [Block.rename, ok]
  exact Chain.assignSpells b [] (by rw [List.map_map]; exact handles) (Chain.soundSpells sound)

theorem Block.stepsOk (b : Block) (sound : b.Sound) (given : ∀ i ∈ b.values, i.inserted = false)
    (short : 3 * b.size < 4294967295) :
    ∃ steps, Renaming.stepsFrom 0 b.entries = .ok steps ∧ Renaming.Renames 0 b.entries steps := by
  have short' : 3 * b.entries.length < 4294967295 :=
    Chain.spellsSize (Chain.soundSpells sound) ▸ short
  have limit : positionLimit = 4294967295 := rfl
  have given' : ∀ e ∈ b.entries, e.2.inserted = false :=
    fun e inside => given e.2 (List.mem_map_of_mem inside)
  exact Renaming.stepsOk given' 0 (Nat.le_of_lt short') (by omega)

theorem Block.renameOk (b : Block) (sound : b.Sound) (given : ∀ i ∈ b.values, i.inserted = false)
    (short : 3 * b.size < 4294967295) :
    ∃ steps, b.rename.result = .ok (Renaming.envAbove steps).summary ∧
      Renaming.Renames 0 b.entries steps ∧
      b.rename.block.Spells (steps.map fun s => (s.handle, s.instr)) := by
  obtain ⟨steps, ok, renames⟩ := b.stepsOk sound given short
  obtain ⟨result, spells⟩ := Block.renameSteps sound ok renames
  exact ⟨steps, result, renames, spells⟩

end Straightline
