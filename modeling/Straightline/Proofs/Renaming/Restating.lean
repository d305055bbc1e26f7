import Straightline.Proofs.Renaming.Ranges
import Straightline.Proofs.Source.Printing

/-! Renaming what was renamed before. Where the virtual registers of a block are taken for its source
registers, every range has a source register to itself. The pass then opens and closes the same ranges
at the same slots, so it gives them the same numbers and the same next uses. -/
namespace Straightline

def Reg.asSource (v : VirtualReg) : SourceReg := ⟨⟨v.number, v.numberLt⟩⟩

theorem Reg.asSourceInjective {v w : VirtualReg} (same : v.asSource = w.asSource) : v = w := by
  have numbers : v.asSource.number = w.asSource.number := congrArg Reg.number same
  exact Reg.numberInjective numbers

structure Instr.SameRanges (i j : Instr) : Prop where
  opcode : j.opcode = i.opcode
  virtual : ∀ slot ∈ i.opcode.slots, (j.operand slot).virtual = (i.operand slot).virtual
  nextUse : ∀ slot ∈ i.opcode.slots, (j.operand slot).nextUse = (i.operand slot).nextUse

namespace Renaming

namespace Env

def Settled (env : Env) : Prop :=
  ∀ r : Option SourceReg, env.ranges[r]? = none → env.nextUse r = .never

/-- The second pass has the ranges of the first one open, each under its own number. -/
structure Restates (env env' : Env) : Prop where
  minted : env'.minted = env.minted
  size : env'.ranges.size = env.ranges.size
  live : env'.live = env.live
  maxLive : env'.maxLive = env.maxLive
  maxPressure : env'.maxPressure = env.maxPressure
  range : ∀ (r : Option SourceReg) (v : VirtualReg), env.ranges[r]? = some v →
    env'.ranges[some v.asSource]? = some v ∧ env'.nextUse (some v.asSource) = env.nextUse r
  origin : ∀ (s : Option SourceReg) (v : VirtualReg), env'.ranges[s]? = some v →
    s = some v.asSource ∧ env.Live v
  settled : env.Settled
  settled' : env'.Settled

theorem restatesEmpty : ({} : Env).Restates {} :=
  have settled : ({} : Env).Settled := fun r _ => by simp [nextUseEq]
  ⟨rfl, rfl, rfl, rfl, rfl, by simp, by simp, settled, settled⟩

section
variable {env env' next next' : Env} {r : Option SourceReg} {v w : VirtualReg}

theorem closesOrigin {s : Option SourceReg} (closes : env.Closes r v next)
    (found : next.ranges[s]? = some w) : s ≠ r ∧ env.ranges[s]? = some w := by
  rw [closes.ranges] at found
  split at found
  · contradiction
  · rename_i differ
    exact ⟨differ, found⟩

theorem closesElsewhere {s : Option SourceReg} (closes : env.Closes r v next) (differ : s ≠ r) :
    next.ranges[s]? = env.ranges[s]? ∧ next.nextUse s = env.nextUse s := by
  rw [closes.ranges, if_neg differ, nextUseEq, closes.reads, if_neg differ, ← nextUseEq]
  exact ⟨rfl, rfl⟩

theorem closesSettled (settled : env.Settled) (closes : env.Closes r v next) : next.Settled := by
  intro s none
  by_cases same : s = r
  · rw [nextUseEq, closes.reads, if_pos same]
    rfl
  · obtain ⟨range, use⟩ := closesElsewhere closes same
    rw [range] at none
    rw [use]
    exact settled s none

theorem opensNextUse (opens : env.Opens r v next) (s : Option SourceReg) :
    next.nextUse s = env.nextUse s := by
  rw [nextUse, nextUse, opens.reads]

theorem opensSettled (settled : env.Settled) (opens : env.Opens r v next) : next.Settled := by
  intro s none
  rw [opens.ranges] at none
  rw [opensNextUse opens]
  split at none
  · contradiction
  · exact settled s none

theorem restatesFree (restates : env.Restates env') (sound : env.Sound)
    (new : env.minted ≤ v.number) : env'.ranges[some v.asSource]? = none := by
  -- What is open under a number is a range with that number, and those are below the next new one.
  cases range : env'.ranges[some v.asSource]? with
  | none => rfl
  | some w =>
    obtain ⟨same, r, open'⟩ := restates.origin _ w range
    obtain rfl := Reg.asSourceInjective (Option.some.inj same)
    have bound := sound.bounded r v open'
    omega

theorem namesHere (names : env.Names r v next) (found : env.ranges[r]? = some w) : w = v := by
  rcases names.value with ⟨there, -⟩ | ⟨free, -⟩
  · exact Option.some.inj (found.symm.trans there)
  · rw [found] at free
    contradiction

theorem namesApart {s : Option SourceReg} (sound : env.Sound) (names : env.Names r v next)
    (found : env.ranges[s]? = some w) (differ : s ≠ r) : w ≠ v := by
  intro same
  subst same
  rcases names.value with ⟨there, -⟩ | ⟨-, number, -⟩
  · exact differ (sound.distinct s r w found there)
  · have bound := sound.bounded s w found
    omega

theorem restatesNames (restates : env.Restates env') (sound : env.Sound)
    (names : env.Names r v next) (names' : env'.Names (some v.asSource) w next') :
    w = v ∧ next'.minted = next.minted ∧
      (env'.ranges[some v.asSource]? = none ↔ env.ranges[r]? = none) ∧
      env'.nextUse (some v.asSource) = env.nextUse r := by
  have minted := restates.minted
  rcases names.value with ⟨there, same⟩ | ⟨free, number, more⟩
  · obtain ⟨there', next⟩ := restates.range r v there
    rcases names'.value with ⟨found, same'⟩ | ⟨free', -⟩
    · rw [there'] at found
      exact ⟨(Option.some.inj found).symm, by omega, by simp [there, there'], next⟩
    · rw [there'] at free'
      contradiction
  · have free' := restatesFree restates sound (v := v) (by omega)
    rcases names'.value with ⟨there', -⟩ | ⟨-, number', more'⟩
    · rw [free'] at there'
      contradiction
    · refine ⟨Reg.numberInjective (by omega), by omega, by simp [free, free'], ?_⟩
      rw [restates.settled r free, restates.settled' _ free']

theorem restatesCloses (restates : env.Restates env') (sound : env.Sound)
    (closes : env.Closes r v next) (closes' : env'.Closes (some v.asSource) w next') :
    w = v ∧ env'.nextUse (some v.asSource) = env.nextUse r ∧ next.Restates next' := by
  obtain ⟨rfl, minted, free, sameUse⟩ :=
    restatesNames restates sound closes.toNames closes'.toNames
  have size := restates.size
  have started := restates.minted
  have balance := closes.balance
  have balance' := closes'.balance
  have size' : next'.ranges.size = next.ranges.size := by omega
  refine ⟨rfl, sameUse, minted, size', ?_, ?_, ?_, ?_, ?_, closesSettled restates.settled closes,
    closesSettled restates.settled' closes'⟩
  · rw [closes'.live, closes.live, size']
  · rw [closes'.maxLive, closes.maxLive, restates.maxLive]
  · rw [closes'.maxPressure, closes.maxPressure, restates.maxPressure, restates.live]
    simp only [free]
  · intro s u found
    obtain ⟨differ, old⟩ := closesOrigin closes found
    obtain ⟨there, same⟩ := restates.range s u old
    have apart : some u.asSource ≠ some w.asSource := fun equal =>
      namesApart sound closes.toNames old differ (Reg.asSourceInjective (Option.some.inj equal))
    obtain ⟨range, use⟩ := closesElsewhere closes' apart
    rw [range, use, (closesElsewhere closes differ).2]
    exact ⟨there, same⟩
  · intro s u found
    obtain ⟨differ, old⟩ := closesOrigin closes' found
    obtain ⟨named, t, there⟩ := restates.origin s u old
    have apart : t ≠ r := by
      intro same
      rw [same] at there
      exact differ (by rw [named, namesHere closes.toNames there])
    exact ⟨named, t, (closesElsewhere closes apart).1.trans there⟩

theorem restatesOpens (restates : env.Restates env') (sound : env.Sound)
    (opens : env.Opens r v next) (opens' : env'.Opens (some v.asSource) w next') :
    w = v ∧ env'.nextUse (some v.asSource) = env.nextUse r ∧ next.Restates next' := by
  obtain ⟨rfl, minted, -, sameUse⟩ := restatesNames restates sound opens.toNames opens'.toNames
  have size := restates.size
  have started := restates.minted
  have balance := opens.balance
  have balance' := opens'.balance
  have size' : next'.ranges.size = next.ranges.size := by omega
  refine ⟨rfl, sameUse, minted, size', ?_, ?_, ?_, ?_, ?_, opensSettled restates.settled opens,
    opensSettled restates.settled' opens'⟩
  · rw [opens'.live, opens.live, size']
  · rw [opens'.peak, opens.peak, restates.maxLive, size']
  · rw [opens'.maxPressure, opens.maxPressure, restates.maxPressure]
  · intro s u found
    rw [opensNextUse opens, opensNextUse opens']
    rcases opensOrigin opens found with ⟨rfl, rfl⟩ | ⟨-, old⟩
    · exact ⟨by rw [opens'.ranges, if_pos rfl], sameUse⟩
    · obtain ⟨there, same⟩ := restates.range s u old
      exact ⟨opensKept opens' there, same⟩
  · intro s u found
    rcases opensOrigin opens' found with ⟨rfl, rfl⟩ | ⟨-, old⟩
    · exact ⟨rfl, r, by rw [opens.ranges, if_pos rfl]⟩
    · obtain ⟨named, t, there⟩ := restates.origin s u old
      exact ⟨named, t, opensKept opens there⟩

theorem restatesMarks {rs rs' : List (Option SourceReg)}
    {reads reads' : Std.TreeMap (Option SourceReg) NextUse} {use : NextUse}
    (restates : env.Restates env')
    (same : ∀ (r : Option SourceReg) (v : VirtualReg), env.ranges[r]? = some v →
      (some v.asSource ∈ rs' ↔ r ∈ rs))
    (opened : ∀ r ∈ rs, env.ranges[r]? ≠ none) (opened' : ∀ s ∈ rs', env'.ranges[s]? ≠ none)
    (marked : ∀ r : Option SourceReg, reads[r]? = if r ∈ rs then some use else env.reads[r]?)
    (marked' : ∀ s : Option SourceReg, reads'[s]? = if s ∈ rs' then some use else env'.reads[s]?) :
    {env with reads}.Restates {env' with reads := reads'} := by
  refine ⟨restates.minted, restates.size, restates.live, restates.maxLive, restates.maxPressure,
    fun r v found => ?_, restates.origin, fun r none => ?_, fun s none => ?_⟩
  · obtain ⟨there, use⟩ := restates.range r v found
    refine ⟨there, ?_⟩
    simp only [nextUseEq, marked, marked', same r v found] at use ⊢
    split
    · rfl
    · exact use
  · rw [nextUseEq, marked, if_neg fun inside => opened r inside none, ← nextUseEq]
    exact restates.settled r none
  · rw [nextUseEq, marked', if_neg fun inside => opened' s inside none, ← nextUseEq]
    exact restates.settled' s none

end
end Env

def Restated (slots : List Slot) (j i : Instr) : Prop :=
  ∀ slot ∈ slots, ∃ v, (j.operand slot).virtual = some v ∧ (i.operand slot).source = some v.asSource

def Repeats (f : Env → Operand → Except Fault (Operand × Env)) : Prop :=
  ∀ (env env' : Env) (op : Operand), env.Restates env' → env.Sound →
    env.minted < Naming.virtual.limit → ∃ v next,
      f env op = .ok ({op with virtual := some v, nextUse := env.nextUse op.source}, next) ∧
      next.Sound ∧ next.minted ≤ env.minted + 1 ∧
      ∀ op' : Operand, op'.source = some v.asSource → ∃ next',
        f env' op' = .ok ({op' with virtual := some v, nextUse := env.nextUse op.source}, next') ∧
        next.Restates next'

theorem writeRepeats : Repeats Env.write := by
  intro env env' op restates sound room
  have live' : env'.live = env'.ranges.size := by rw [restates.live, sound.live, restates.size]
  obtain ⟨v, next, ok, closes⟩ := Env.writeOk sound.live room op
  refine ⟨v, next, ok, Env.closesSound sound closes, (Env.namesMinted closes.toNames).2, ?_⟩
  intro op' named
  obtain ⟨w, next', ok', closes'⟩ := Env.writeOk live' (restates.minted ▸ room) op'
  obtain ⟨rfl, use, restates'⟩ := Env.restatesCloses restates sound closes (named ▸ closes')
  rw [← named] at use
  rw [use] at ok'
  exact ⟨next', ok', restates'⟩

theorem readRepeats : Repeats Env.read := by
  intro env env' op restates sound room
  have live' : env'.live = env'.ranges.size := by rw [restates.live, sound.live, restates.size]
  obtain ⟨v, next, ok, opens⟩ := Env.readOk sound.live sound.counted room op
  refine ⟨v, next, ok, Env.opensSound sound opens, (Env.namesMinted opens.toNames).2, ?_⟩
  intro op' named
  have counted' : env'.ranges.size ≤ env'.maxLive := by
    rw [restates.size, restates.maxLive]
    exact sound.counted
  obtain ⟨w, next', ok', opens'⟩ := Env.readOk live' counted' (restates.minted ▸ room) op'
  obtain ⟨rfl, use, restates'⟩ := Env.restatesOpens restates sound opens (named ▸ opens')
  rw [← named] at use
  rw [use] at ok'
  exact ⟨next', ok', restates'⟩

/-- What the second pass makes of some slots of `i'`: their ranges are those in `j`, and the other
slots are left alone. -/
structure Copies (slots : List Slot) (j i' j' : Instr) : Prop where
  relabels : i'.Relabels j'
  virtual : ∀ slot ∈ slots, (j'.operand slot).virtual = (j.operand slot).virtual
  nextUse : ∀ slot ∈ slots, (j'.operand slot).nextUse = (j.operand slot).nextUse
  others : ∀ slot, slot ∉ slots → j'.operand slot = i'.operand slot

section
variable {f : Env → Operand → Except Fault (Operand × Env)} {slots : List Slot} {slot : Slot}
  {env env' next middle : Env} {i i' j j' : Instr}

theorem slotsOthers (ok : slots.foldlM (onSlot f) (i, env) = .ok (j, next)) (other : slot ∉ slots) :
    j.operand slot = i.operand slot := by
  induction slots generalizing i env with
  | nil =>
    cases ok
    rfl
  | cons t slots ih =>
    obtain ⟨differ, other⟩ := not_or.mp (List.mem_cons.not.mp other)
    obtain ⟨⟨k, middle⟩, first, rest⟩ := bindOk.mp ok
    obtain ⟨⟨op, _⟩, -, set⟩ := bindOk.mp first
    cases set
    rw [ih rest other, Instr.operandSetOther i op differ]

theorem slotsRepeat (repeats : Repeats f) (distinct : slots.Nodup) (restates : env.Restates env')
    (sound : env.Sound) (room : env.minted + slots.length ≤ Naming.virtual.limit)
    (ok : slots.foldlM (onSlot f) (i, env) = .ok (j, next)) (restated : Restated slots j i') :
    ∃ j' next', slots.foldlM (onSlot f) (i', env') = .ok (j', next') ∧ next.Restates next' ∧
      Copies slots j i' j' := by
  induction slots generalizing env env' i i' with
  | nil =>
    cases ok
    exact ⟨i', env', rfl, restates, i'.relabelsRefl, nofun, nofun, fun _ _ => rfl⟩
  | cons slot slots ih =>
    obtain ⟨new, distinct⟩ := List.nodup_cons.mp distinct
    rw [List.length_cons] at room
    obtain ⟨v, middle, first, sound', minted, again⟩ :=
      repeats env env' (i.operand slot) restates sound (by omega)
    have rest : slots.foldlM (onSlot f) (i.setOperand slot {i.operand slot with
        virtual := some v, nextUse := env.nextUse (i.operand slot).source}, middle) =
        .ok (j, next) := by
      simpa only [List.foldlM_cons, onSlot, first, bind, Except.bind] using ok
    have here : j.operand slot = {i.operand slot with
        virtual := some v, nextUse := env.nextUse (i.operand slot).source} := by
      rw [slotsOthers rest new, Instr.operandSetSame]
    obtain ⟨w, virtual, named⟩ := restated slot List.mem_cons_self
    obtain rfl : v = w := by
      rw [here] at virtual
      exact Option.some.inj virtual
    obtain ⟨middle', first', restates'⟩ := again (i'.operand slot) named
    have later : Restated slots j (i'.setOperand slot {i'.operand slot with
        virtual := some v, nextUse := env.nextUse (i.operand slot).source}) := by
      intro t inside
      have differ : t ≠ slot := fun same => new (same ▸ inside)
      rw [Instr.operandSetOther i' _ differ]
      exact restated t (List.mem_cons_of_mem _ inside)
    obtain ⟨j', next', rest', last, copies⟩ := ih distinct restates' sound' (by omega) rest later
    have here' := copies.others slot new
    rw [Instr.operandSetSame] at here'
    refine ⟨j', next', ?_, last, Instr.relabelsTrans (i'.relabelsSet slot _ _) copies.relabels, ?_, ?_,
      ?_⟩
    · simpa only [List.foldlM_cons, onSlot, first', bind, Except.bind] using rest'
    · exact List.forall_mem_cons.mpr ⟨by rw [here, here'], copies.virtual⟩
    · exact List.forall_mem_cons.mpr ⟨by rw [here, here'], copies.nextUse⟩
    · intro t other
      obtain ⟨differ, other⟩ := not_or.mp (List.mem_cons.not.mp other)
      rw [copies.others t other, Instr.operandSetOther i' _ differ]

end

section
variable {position : Nat} {below below' above closed opened : Env} {i i' middle j : Instr}

theorem restatesReads (restates : opened.Restates below') (sound : opened.Sound)
    (opens : OpensAll i.opcode.reads middle closed j opened) (relabels : i.Relabels middle)
    (opcode : i'.opcode = i.opcode) (restated : Restated i.opcode.reads j i') :
    (∀ (r : Option SourceReg) (v : VirtualReg), opened.ranges[r]? = some v →
      (some v.asSource ∈ i'.readOperands.map Operand.source ↔
        r ∈ i.readOperands.map Operand.source)) ∧
      (∀ r ∈ i.readOperands.map Operand.source, opened.ranges[r]? ≠ none) ∧
      ∀ s ∈ i'.readOperands.map Operand.source, below'.ranges[s]? ≠ none := by
  have slots : ∀ slot ∈ i.opcode.reads, ∃ v, opened.ranges[(i.operand slot).source]? = some v ∧
      (i'.operand slot).source = some v.asSource := by
    intro slot inside
    obtain ⟨v, virtual, -, range⟩ := opens.read slot inside
    obtain ⟨w, virtual', named⟩ := restated slot inside
    obtain rfl := Option.some.inj (virtual.symm.trans virtual')
    exact ⟨v, relabels.source slot ▸ range, named⟩
  simp only [Instr.readOperands, opcode, List.map_map, List.mem_map, Function.comp_apply]
  refine ⟨fun r v found => ⟨?_, ?_⟩, ?_, ?_⟩
  · intro listed
    obtain ⟨slot, inside, same⟩ := listed
    obtain ⟨w, range, named⟩ := slots slot inside
    rw [named] at same
    obtain rfl := Reg.asSourceInjective (Option.some.inj same)
    exact ⟨slot, inside, sound.distinct _ r w range found⟩
  · intro listed
    obtain ⟨slot, inside, same⟩ := listed
    obtain ⟨w, range, named⟩ := slots slot inside
    rw [same, found] at range
    obtain rfl := Option.some.inj range
    exact ⟨slot, inside, named⟩
  · intro r listed
    obtain ⟨slot, inside, same⟩ := listed
    obtain ⟨w, range, -⟩ := slots slot inside
    simp [← same, range]
  · intro s listed
    obtain ⟨slot, inside, same⟩ := listed
    obtain ⟨w, range, named⟩ := slots slot inside
    simp [← same, named, (restates.range _ w range).1]

theorem instrRepeats (given : i.inserted = false) (given' : i'.inserted = false)
    (opcode : i'.opcode = i.opcode) (sound : below.Sound)
    (room : below.minted + 3 ≤ Naming.virtual.limit) (inRange : position < positionLimit)
    (restates : below.Restates below') (ok : renameInstr position i below = .ok (j, above))
    (restated : Restated i.opcode.slots j i') :
    ∃ j' above', renameInstr position i' below' = .ok (j', above') ∧ above.Restates above' ∧
      i'.Relabels j' ∧ j.SameRanges j' := by
  have few := Opcode.readsAtMostTwo i.opcode
  obtain ⟨middle, closed, wrote, closes⟩ := writeAllOk sound i (by omega)
  have grows := closes.minted
  obtain ⟨last, opened, read, opens⟩ := readAllOk closes.sound i.opcode.reads middle (by omega)
  obtain ⟨reads, marked, lookup⟩ := Env.markAllOk inRange opened (i.readOperands.map Operand.source)
  obtain ⟨rfl, rfl⟩ : last = j ∧ {opened with reads} = above := by
    simpa only [renameInstr, given, Bool.false_eq_true, if_false, wrote, read, marked, bind,
      Except.bind, Except.ok.injEq, Prod.mk.injEq] using ok
  -- The slot written is not read, so it is as the write has left it.
  have unread : ∀ slot ∈ i.opcode.writes.toList, last.operand slot = middle.operand slot :=
    fun slot written => opens.unread slot (Opcode.writtenUnread (Option.mem_toList.mp written))
  have single : i.opcode.writes.toList.Nodup := by cases i.opcode.writes <;> simp
  have short : i.opcode.writes.toList.length ≤ 1 := by cases i.opcode.writes <;> simp
  have restatedWrite : Restated i.opcode.writes.toList middle i' := by
    intro slot written
    rw [← unread slot written]
    exact restated slot (List.mem_append_right _ written)
  obtain ⟨middle', closed', wrote', restates', copied⟩ := slotsRepeat writeRepeats single restates
    sound (by omega) wrote restatedWrite
  have restatedReads : Restated i.opcode.reads last i' :=
    fun slot inside => restated slot (List.mem_append_left _ inside)
  have restatedReads' : Restated i.opcode.reads last middle' := by
    intro slot inside
    rw [copied.relabels.source]
    exact restatedReads slot inside
  obtain ⟨last', opened', read', restates'', copies⟩ := slotsRepeat readRepeats
    (Opcode.readsDistinct i.opcode) restates' closes.sound (by omega) read restatedReads'
  obtain ⟨reads', marked', lookup'⟩ := Env.markAllOk inRange opened'
    (i'.readOperands.map Operand.source)
  have relabels := Instr.relabelsTrans copied.relabels copies.relabels
  refine ⟨last', {opened' with reads := reads'}, ?_, ?_, relabels, ?_⟩
  · simp only [renameInstr, given', Bool.false_eq_true, if_false, opcode, wrote', read', marked', bind,
      Except.bind]
  · obtain ⟨same, isOpen, isOpen'⟩ := restatesReads restates'' opens.sound opens closes.relabels opcode
      restatedReads
    exact Env.restatesMarks restates'' same isOpen isOpen' lookup lookup'
  · have opcodes : last.opcode = i.opcode :=
      opens.relabels.opcode.trans closes.relabels.opcode
    have written : ∀ slot ∈ i.opcode.writes.toList, last'.operand slot = middle'.operand slot :=
      fun slot written => copies.others slot
        (Opcode.writtenUnread (Option.mem_toList.mp written))
    refine ⟨by rw [relabels.opcode, opcode, opcodes], ?_, ?_⟩
    · rw [opcodes]
      refine List.forall_mem_append.mpr ⟨copies.virtual, fun slot inside => ?_⟩
      rw [written slot inside, unread slot inside, copied.virtual slot inside]
    · rw [opcodes]
      refine List.forall_mem_append.mpr ⟨copies.nextUse, fun slot inside => ?_⟩
      rw [written slot inside, unread slot inside, copied.nextUse slot inside]

end

def Step.Repeats (s s' : Step) : Prop :=
  s.instr.SameRanges s'.instr ∧
    ∃ line i', s.instr.Echoes .virtual line i' ∧ i'.Relabels s'.instr

theorem echoesRestated {j i' : Instr} {line : Nat} (given : j.inserted = false)
    (echoes : j.Echoes .virtual line i') : Restated j.opcode.slots j i' := by
  intro slot used
  obtain ⟨r, operand, shown⟩ := echoes.registers slot used
  rw [Instr.shownGiven given] at shown
  obtain ⟨v, virtual, number⟩ := Option.map_eq_some_iff.mp shown
  refine ⟨v, virtual, ?_⟩
  have same : r = v.asSource := Reg.numberInjective number.symm
  rw [operand, same]

theorem stepsRepeat {es es' : List (Handle × Instr)} {steps : List Step}
    (given : ∀ e ∈ es, e.2.inserted = false) (position : Nat)
    (short : 3 * es.length ≤ Naming.virtual.limit) (inRange : position + es.length ≤ positionLimit)
    (ok : stepsFrom position es = .ok steps)
    (echoes : List.Forall₂ (fun s e => ∃ line, s.instr.Echoes .virtual line e.2) steps es') :
    ∃ steps', stepsFrom position es' = .ok steps' ∧ (envAbove steps).Restates (envAbove steps') ∧
      List.Forall₂ Step.Repeats steps steps' := by
  induction es generalizing position steps es' with
  | nil =>
    cases ok
    cases echoes
    exact ⟨[], rfl, Env.restatesEmpty, .nil⟩
  | cons e es ih =>
    obtain ⟨h, i⟩ := e
    obtain ⟨here, given⟩ := List.forall_mem_cons.mp given
    simp only [List.length_cons] at short inRange
    obtain ⟨below, okBelow, renames⟩ := stepsOk given (position + 1) (by omega) (by omega)
    have minted := renamesMinted renames
    obtain ⟨j, env, renamed, pass⟩ := renameInstrOk position here (renamesSound renames)
      (by omega) (by omega)
    obtain rfl : ⟨position, h, j, env⟩ :: below = steps := by
      simpa only [stepsFrom, okBelow, bind, Except.bind, renamed, Except.ok.injEq] using ok
    cases echoes with
    | @cons _ e' _ es' echo echoes =>
      obtain ⟨h', i'⟩ := e'
      obtain ⟨line, echo⟩ := echo
      obtain ⟨below', okBelow', restates, repeats⟩ := ih given (position + 1) (by omega) (by omega)
        okBelow echoes
      have given' : j.inserted = false := pass.relabels.inserted.trans here
      have restated := echoesRestated given' echo
      rw [pass.relabels.opcode] at restated
      obtain ⟨j', env', renamed', restates', relabels, same⟩ := instrRepeats here echo.given
        (echo.opcode.trans pass.relabels.opcode) (renamesSound renames) (by omega) (by omega) restates
        renamed restated
      refine ⟨⟨position, h', j', env'⟩ :: below', ?_, restates',
        .cons ⟨same, line, i', echo, relabels⟩ repeats⟩
      simp only [stepsFrom, okBelow', bind, Except.bind, renamed']

theorem restatesSummary {env env' : Env} (restates : env.Restates env') :
    env'.summary = env.summary := by
  rw [Env.summary, Env.summary, restates.maxLive, restates.minted, restates.maxPressure]

end Renaming
end Straightline
