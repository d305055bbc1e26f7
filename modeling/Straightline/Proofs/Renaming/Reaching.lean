import Mathlib.Data.List.Forall2
import Straightline.Proofs.Renaming.Places
import Straightline.Proofs.Renaming.Ranges

/-! Renaming finds the values of a block. Two places have the same virtual register exactly when they
are about the same value of the same source register, the virtual registers are numbered without a
gap, and every place learns where its value is read next. All of this is seen from below: the open
ranges of a suffix are the registers that it reads before it writes them. -/
namespace Straightline.Renaming

def Continues (i : Instr) (slot : Slot) : Prop :=
  i.opcode.writes = some slot ↔ i.writtenReg .source = some (i.operand slot).source

structure Labels (is js : List Instr) (env : Env) : Prop where
  named : ∀ o : Place, o.Used is → ∃ v, (o.operand js).virtual = some v ∧ v.number < env.minted
  all : ∀ x < env.minted, ∃ o : Place, o.Used is ∧
    ∃ v, (o.operand js).virtual = some v ∧ v.number = x
  opened : ∀ (r : Option SourceReg) (v : VirtualReg), env.ranges[r]? = some v ↔
    ∃ o : Place, o.Used is ∧ o.origin is = none ∧ (o.operand is).source = r ∧
      (o.operand js).virtual = some v
  same : ∀ o o' : Place, o.Used is → o'.Used is →
    ((o.operand js).virtual = (o'.operand js).virtual ↔
      (o.operand is).source = (o'.operand is).source ∧ o.origin is = o'.origin is)

section
variable {position : Nat} {below above : Env} {i j : Instr} {is js : List Instr} {slot slot' : Slot}
  {es : List (Handle × Instr)} {steps : List Step}

theorem continuesOrigin : Continues i slot ↔ (if i.opcode.writes = some slot then some 0 else none) =
    if i.writtenReg .source = some (i.operand slot).source then some 0 else none := by
  rw [Continues]
  by_cases here : i.opcode.writes = some slot <;>
    by_cases there : i.writtenReg .source = some (i.operand slot).source <;> simp [here, there]

theorem passesValue (pass : Passes position below i j above) (sound : below.Sound)
    (used : slot ∈ i.opcode.reads ∨ i.opcode.writes = some slot) :
    ∃ v, (j.operand slot).virtual = some v ∧ v.number < above.minted ∧
      (Continues i slot ∧ below.ranges[(i.operand slot).source]? = some v ∨
        below.minted ≤ v.number ∧
          (Continues i slot → below.ranges[(i.operand slot).source]? = none)) := by
  by_cases writes : i.opcode.writes = some slot
  · obtain ⟨v, virtual, -, bound, -, value⟩ := pass.written slot writes
    have continues : Continues i slot :=
      ⟨fun _ => Instr.writtenRegSome writes, fun _ => writes⟩
    refine ⟨v, virtual, bound, ?_⟩
    rcases value with there | ⟨missing, number, -⟩
    · exact .inl ⟨continues, there⟩
    · exact .inr ⟨Nat.le_of_eq number.symm, fun _ => missing⟩
  · obtain ⟨v, virtual, range, -⟩ := pass.read slot (used.resolve_right writes)
    refine ⟨v, virtual, pass.sound.bounded _ v range, ?_⟩
    rcases pass.origin _ v range with ⟨old, differ⟩ | ⟨-, new⟩
    · exact .inl ⟨⟨fun here => absurd here writes, fun there => absurd there differ⟩, old⟩
    · refine .inr ⟨new, fun continues => ?_⟩
      have differ : i.writtenReg .source ≠ some (i.operand slot).source :=
        fun there => writes (continues.mpr there)
      cases old : below.ranges[(i.operand slot).source]? with
      | none => rfl
      | some w =>
        -- A range that is open below stays as it is, and the one found here is a new one.
        have kept := pass.kept _ w old differ
        rw [range] at kept
        obtain rfl := Option.some.inj kept
        have bound := sound.bounded _ v old
        omega

theorem shiftedOrigin {a : Option Nat} {c : Prop} [Decidable c] {d : Prop} [Decidable d] :
    (if c then some 0 else none) = (a.map (· + 1)).or (if d then some 0 else none) ↔
      a = none ∧ (if c then some 0 else none) = if d then some 0 else none := by
  cases a with
  | none => simp
  | some q => by_cases here : c <;> simp [here]

theorem shiftedSame {a b : Option Nat} {c : Prop} [Decidable c] :
    (a.map (· + 1)).or (if c then some 0 else none) = (b.map (· + 1)).or (if c then some 0 else none) ↔
      a = b := by
  cases a <;> cases b <;> by_cases here : c <;> simp [here]

theorem labelsHeads (pass : Passes position below i j above) (sound : below.Sound)
    (marked : below.Marked) (used : slot ∈ i.opcode.reads ∨ i.opcode.writes = some slot)
    (used' : slot' ∈ i.opcode.reads ∨ i.opcode.writes = some slot') :
    (j.operand slot).virtual = (j.operand slot').virtual ↔
      (i.operand slot).source = (i.operand slot').source ∧
        Place.origin (i :: is) ⟨0, slot⟩ = Place.origin (i :: is) ⟨0, slot'⟩ := by
  -- A range that is read here is open above, and one that is written here is not.
  have apart : ∀ s t, i.opcode.writes = some s → t ∈ i.opcode.reads →
      (j.operand s).virtual ≠ (j.operand t).virtual := by
    intro s t writes read same
    obtain ⟨v, virtual, dead, -⟩ := passesWritten pass sound marked writes
    obtain ⟨w, virtual', live, -⟩ := passesRead pass sound marked read
    rw [virtual, virtual'] at same
    exact dead (Option.some.inj same ▸ live)
  rw [Place.originHead, Place.originHead]
  by_cases writes : i.opcode.writes = some slot
  · by_cases writes' : i.opcode.writes = some slot'
    · obtain rfl := Option.some.inj (writes.symm.trans writes')
      simp
    · rw [if_pos writes, if_neg writes']
      simp [apart slot slot' writes (used'.resolve_right writes')]
  · by_cases writes' : i.opcode.writes = some slot'
    · rw [if_neg writes, if_pos writes']
      simp [(apart slot' slot writes' (used.resolve_right writes)).symm]
    · obtain ⟨v, virtual, range, -⟩ := pass.read slot (used.resolve_right writes)
      obtain ⟨w, virtual', range', -⟩ := pass.read slot' (used'.resolve_right writes')
      simp only [virtual, virtual', writes, writes', if_false, and_true, Option.some.injEq]
      constructor
      · intro same
        exact pass.sound.distinct _ _ v range (same ▸ range')
      · intro same
        rw [same, range'] at range
        exact (Option.some.inj range).symm

theorem labelsHeadTail (pass : Passes position below i j above) (sound : below.Sound)
    (labels : Labels is js below) (used : slot ∈ i.opcode.reads ∨ i.opcode.writes = some slot)
    {o : Place} (used' : o.Used is) :
    (j.operand slot).virtual = (o.operand js).virtual ↔
      (i.operand slot).source = (o.operand is).source ∧
        Place.origin (i :: is) ⟨0, slot⟩ = ((o.origin is).map (· + 1)).or
          (if i.writtenReg .source = some (o.operand is).source then some 0 else none) := by
  obtain ⟨v, virtual, -, value⟩ := passesValue pass sound used
  obtain ⟨w, virtual', bound⟩ := labels.named o used'
  constructor
  · intro same
    obtain rfl : v = w := Option.some.inj (virtual.symm.trans (same.trans virtual'))
    rcases value with ⟨continues, range⟩ | ⟨new, -⟩
    · obtain ⟨o', used'', closed, source, virtual''⟩ := (labels.opened _ v).mp range
      obtain ⟨sameSource, sameOrigin⟩ :=
        (labels.same o' o used'' used').mp (virtual''.trans virtual'.symm)
      rw [source] at sameSource
      refine ⟨sameSource, ?_⟩
      rw [Place.originHead, continuesOrigin.mp continues, ← sameOrigin, closed, sameSource]
      rfl
    · omega
  · intro both
    obtain ⟨source, origin⟩ := both
    rw [Place.originHead] at origin
    obtain ⟨closed, head⟩ := shiftedOrigin.mp origin
    have continues : Continues i slot := by
      rw [continuesOrigin, head, source]
    have range : below.ranges[(i.operand slot).source]? = some w :=
      (labels.opened _ w).mpr ⟨o, used', closed, source.symm, virtual'⟩
    rcases value with ⟨-, range'⟩ | ⟨-, missing⟩
    · rw [virtual, virtual', ← range', range]
    · rw [missing continues] at range
      contradiction

theorem labelsOpened (pass : Passes position below i j above) (labels : Labels is js below)
    (r : Option SourceReg) (v : VirtualReg) : above.ranges[r]? = some v ↔
      ∃ o : Place, o.Used (i :: is) ∧ o.origin (i :: is) = none ∧ (o.operand (i :: is)).source = r ∧
        (o.operand (j :: js)).virtual = some v := by
  constructor
  · intro range
    rcases pass.origin r v range with ⟨old, differ⟩ | ⟨inside, -⟩
    · obtain ⟨⟨p, slot⟩, used, closed, source, virtual⟩ := (labels.opened r v).mp old
      refine ⟨⟨p + 1, slot⟩, Place.usedTail.mpr used, ?_, source, virtual⟩
      rw [Place.originTail, closed, source, if_neg differ]
      rfl
    · obtain ⟨slot, read, source⟩ := Instr.memReadRegs.mp inside
      obtain ⟨w, virtual, range', -⟩ := pass.read slot read
      refine ⟨⟨0, slot⟩, .inl (Place.readHead.mpr read), ?_, source, ?_⟩
      · rw [Place.originHead, if_neg]
        exact fun writes => Opcode.writtenUnread writes read
      · rw [Place.operandHead, virtual, ← range', ← range]
        exact congrArg (above.ranges[·]?) source
  · intro place
    obtain ⟨⟨p, slot⟩, used, closed, source, virtual⟩ := place
    cases p with
    | zero =>
      have read := Place.readHead.mp (Place.originRead closed used)
      obtain ⟨w, virtual', range, -⟩ := pass.read slot read
      rw [Place.operandHead] at source virtual
      rw [← source, range, ← virtual', virtual]
    | succ p =>
      rw [Place.originTail] at closed
      obtain ⟨before, none⟩ := Option.or_eq_none_iff.mp closed
      have old : below.ranges[r]? = some v :=
        (labels.opened r v).mpr ⟨⟨p, slot⟩, Place.usedTail.mp used, Option.map_eq_none_iff.mp before,
          source, virtual⟩
      refine pass.kept r v old fun written => ?_
      rw [Place.operandTail] at source
      rw [source, if_pos written] at none
      contradiction

theorem labelsCons (pass : Passes position below i j above) (sound : below.Sound)
    (marked : below.Marked) (labels : Labels is js below) : Labels (i :: is) (j :: js) above := by
  have head : ∀ slot, (⟨0, slot⟩ : Place).Used (i :: is) →
      slot ∈ i.opcode.reads ∨ i.opcode.writes = some slot :=
    fun slot used => used.imp Place.readHead.mp Place.writtenHead.mp
  refine ⟨?_, ?_, labelsOpened pass labels, ?_⟩
  · intro ⟨p, slot⟩ used
    cases p with
    | zero =>
      obtain ⟨v, virtual, bound, -⟩ := passesValue pass sound (head slot used)
      exact ⟨v, virtual, bound⟩
    | succ p =>
      obtain ⟨v, virtual, bound⟩ := labels.named ⟨p, slot⟩ (Place.usedTail.mp used)
      exact ⟨v, virtual, Nat.lt_of_lt_of_le bound pass.minted.1⟩
  · intro x less
    rcases Nat.lt_or_ge x below.minted with old | new
    · obtain ⟨⟨p, slot⟩, used, found⟩ := labels.all x old
      exact ⟨⟨p + 1, slot⟩, Place.usedTail.mpr used, found⟩
    · obtain ⟨slot, used, found⟩ := pass.fresh x new less
      exact ⟨⟨0, slot⟩, used.imp Place.readHead.mpr Place.writtenHead.mpr, found⟩
  · intro ⟨p, slot⟩ ⟨p', slot'⟩ used used'
    cases p with
    | zero =>
      cases p' with
      | zero => exact labelsHeads pass sound marked (head slot used) (head slot' used')
      | succ p' =>
        rw [Place.originTail]
        exact labelsHeadTail pass sound labels (head slot used) (Place.usedTail.mp used')
    | succ p =>
      cases p' with
      | zero =>
        rw [Place.originTail, eq_comm, eq_comm (a := ((⟨p + 1, slot⟩ : Place).operand _).source),
          eq_comm (a := Option.or _ _)]
        exact labelsHeadTail pass sound labels (head slot' used') (Place.usedTail.mp used)
      | succ p' =>
        have tails := labels.same ⟨p, slot⟩ ⟨p', slot'⟩ (Place.usedTail.mp used)
          (Place.usedTail.mp used')
        rw [Place.originTail, Place.originTail, Place.operandTail, Place.operandTail,
          Place.operandTail, Place.operandTail, tails]
        refine and_congr_right fun source => ?_
        rw [source, shiftedSame]

theorem renamesLabels (renames : Renames position es steps) :
    Labels (es.map Prod.snd) (steps.map Step.instr) (envAbove steps) := by
  induction renames with
  | nil =>
    have unused : ∀ o : Place, ¬ o.Used [] := by simp [Place.Used, Place.Read, Place.Written]
    refine ⟨fun o used => absurd used (unused o), fun x less => ?_, fun r v => ?_,
      fun o _ used => absurd used (unused o)⟩
    · simp [envAbove] at less
    · simp [envAbove, unused]
  | cons inRange pass rest ih =>
    exact labelsCons pass (renamesSound rest) (renamesMarked rest) ih

theorem renamesCount (renames : Renames position es steps) :
    (envAbove steps).minted = (es.map Prod.snd).countP (fun i => i.opcode.writes.isSome) +
      (envAbove steps).ranges.size := by
  induction renames with
  | nil => simp [envAbove]
  | @cons position h i j env es steps inRange pass rest ih =>
    have balance := pass.balance
    have here : i.opcode.writes.toList.length = if i.opcode.writes.isSome then 1 else 0 := by
      cases i.opcode.writes <;> rfl
    simp only [envAboveCons, List.map_cons, List.countP_cons]
    omega

theorem originOfRead {o : Place} (read : o.Read is) :
    o.origin is = lastWrite is (o.operand is).source o.position := by
  rw [Place.origin, if_neg]
  intro written
  obtain ⟨i, found, inside⟩ := read
  obtain ⟨i', found', writes⟩ := written
  obtain rfl := Option.some.inj (found.symm.trans found')
  exact Opcode.writtenUnread writes inside

theorem labelsExposed {env : Env} (labels : Labels is js env) :
    env.ranges.size = (exposed is).card := by
  have keys : env.ranges.keys.toFinset = exposed is := by
    ext r
    rw [List.mem_toFinset, Std.TreeMap.mem_keys, Std.TreeMap.mem_iff_isSome_getElem?,
      Option.isSome_iff_exists, memExposed]
    constructor
    · intro range
      obtain ⟨v, range⟩ := range
      obtain ⟨o, used, closed, source, -⟩ := (labels.opened r v).mp range
      have read := Place.originRead closed used
      refine ⟨o.position, readsAtPlace.mpr ⟨o.slot, read, source⟩, ?_⟩
      rw [← source, ← originOfRead read, closed]
    · intro found
      obtain ⟨p, reads, unwritten⟩ := found
      obtain ⟨s, read, source⟩ := readsAtPlace.mp reads
      obtain ⟨v, virtual, -⟩ := labels.named ⟨p, s⟩ (.inl read)
      refine ⟨v, (labels.opened r v).mpr ⟨⟨p, s⟩, .inl read, ?_, source, virtual⟩⟩
      rw [originOfRead read, source, unwritten]
  rw [← keys, List.toFinset_card_of_nodup Std.TreeMap.nodup_keys, Std.TreeMap.length_keys]

theorem offsetSucc {first : Nat → Prop} {x : Nat} : (∃ q, x = position + 1 + q ∧ first q) ↔
    ∃ q, x = position + q ∧ ∃ y, q = y + 1 ∧ first y := by
  constructor
  · intro found
    obtain ⟨q, rfl, here⟩ := found
    exact ⟨q + 1, by omega, q, rfl, here⟩
  · intro found
    obtain ⟨q, rfl, y, rfl, here⟩ := found
    exact ⟨y, by omega, here⟩

theorem renamesNextUse (renames : Renames position es steps) (r : Option SourceReg) (x : Nat) :
    ((envAbove steps).nextUse r).position? = some x ↔
      ∃ q, x = position + q ∧ FirstRead (es.map Prod.snd) r q := by
  induction renames with
  | nil =>
    refine ⟨fun found => ?_, fun found => ?_⟩
    · simp [envAbove, Env.nextUseEq, NextUse.position?] at found
    · obtain ⟨q, -, first⟩ := found
      obtain ⟨i, missing, -⟩ := first.reads
      simp at missing
  | @cons position h i j env es steps inRange pass rest ih =>
    rw [envAboveCons, Env.nextUseEq, pass.reads inRange r, List.map_cons]
    by_cases read : r ∈ i.readRegs .source
    · simp [read, firstReadHead read, NextUse.position?, eq_comm]
    · rw [if_neg read]
      by_cases written : i.writtenReg .source = some r
      · simp [written, firstReadNone read written, NextUse.position?]
      · rw [if_neg written, ← Env.nextUseEq, ih]
        simp only [firstReadTail read written]
        exact offsetSucc

theorem passesNextUse (pass : Passes position below i j above)
    (used : slot ∈ i.opcode.reads ∨ i.opcode.writes = some slot) :
    (j.operand slot).nextUse = (if i.opcode.writes ≠ some slot ∧
      i.writtenReg .source = some (i.operand slot).source then .never
      else below.nextUse (i.operand slot).source) := by
  by_cases writes : i.opcode.writes = some slot
  · obtain ⟨v, -, next, -⟩ := pass.written slot writes
    simp [next, writes]
  · obtain ⟨v, -, -, next⟩ := pass.read slot (used.resolve_right writes)
    simp [next, writes]

theorem renamesNextRead (renames : Renames position es steps) {o : Place}
    (used : o.Used (es.map Prod.snd)) (x : Nat) :
    (o.operand (steps.map Step.instr)).nextUse.position? = some x ↔
      ∃ q, x = position + q ∧ NextRead (es.map Prod.snd) (o.operand (es.map Prod.snd)).source
        o.position (o.since (es.map Prod.snd)) q := by
  obtain ⟨p, slot⟩ := o
  induction renames generalizing p with
  | nil => simp [Place.Used, Place.Read, Place.Written] at used
  | @cons position h i j env es steps inRange pass rest ih =>
    simp only [List.map_cons] at used ⊢
    cases p with
    | zero =>
      have head := used.imp Place.readHead.mp Place.writtenHead.mp
      rw [Place.operandHead, Place.operandHead, passesNextUse pass head, Place.sinceHead]
      by_cases ends : i.opcode.writes ≠ some slot ∧ i.writtenReg .source = some (i.operand slot).source
      · -- The value read here ends with the instruction, and no read is behind it.
        rw [if_pos ends, if_neg ends.1]
        refine ⟨fun found => by simp [NextUse.position?] at found, fun found => ?_⟩
        obtain ⟨q, -, next⟩ := found
        exact absurd (writesAtHead.mpr ends.2) (next.same 0 (Nat.le_refl 0) next.later)
      · rw [if_neg ends, renamesNextUse rest]
        have open' : 1 ≤ (if i.opcode.writes = some slot then 1 else 0) ∨
            i.writtenReg .source ≠ some (i.operand slot).source := by
          by_cases writes : i.opcode.writes = some slot
          · simp [writes]
          · exact .inr fun written => ends ⟨writes, written⟩
        simp only [nextReadHead open' (by split <;> omega)]
        exact offsetSucc
    | succ p =>
      rw [Place.operandTail, Place.operandTail, ih p (Place.usedTail.mp used), Place.sinceTail]
      constructor
      · intro found
        obtain ⟨q, rfl, next⟩ := found
        exact ⟨q + 1, by omega, nextReadTail.mpr next⟩
      · intro found
        obtain ⟨q, rfl, next⟩ := found
        obtain ⟨y, rfl⟩ : ∃ y, q = y + 1 := ⟨q - 1, by have := next.later; omega⟩
        exact ⟨y, by omega, nextReadTail.mp next⟩

structure Annotates (i j : Instr) : Prop extends i.Relabels j where
  unused : ∀ slot, slot ∉ i.opcode.reads → i.opcode.writes ≠ some slot → j.operand slot = i.operand slot

theorem renamesAnnotates (renames : Renames position es steps) :
    List.Forall₂ Annotates (es.map Prod.snd) (steps.map Step.instr) := by
  induction renames with
  | nil => exact .nil
  | cons inRange pass rest ih => exact .cons ⟨pass.relabels, pass.unused⟩ ih

end

/-- Renaming gives two places the same virtual register exactly when they are about the same value,
leaves no number out, and notes at each place the next read of its value. Nothing else of the block
changes. -/
theorem renamingFindsValues (b : Block) (sound : b.Sound)
    (given : ∀ i ∈ b.values, i.inserted = false) (short : 3 * b.size < 4294967294) :
    ∃ summary, b.rename.result = .ok summary ∧
      (∀ o o' : Place, o.Used b.values → o'.Used b.values →
        ((o.operand b.rename.block.values).virtual = (o'.operand b.rename.block.values).virtual ↔
          (o.operand b.values).source = (o'.operand b.values).source ∧
            o.origin b.values = o'.origin b.values)) ∧
      (∀ o : Place, o.Used b.values → ∃ v, (o.operand b.rename.block.values).virtual = some v ∧
        v.number < summary.numVirtual) ∧
      (∀ x < summary.numVirtual, ∃ o : Place, o.Used b.values ∧
        ∃ v, (o.operand b.rename.block.values).virtual = some v ∧ v.number = x) ∧
      summary.numVirtual =
        b.values.countP (fun i => i.opcode.writes.isSome) + (exposed b.values).card ∧
      (∀ o : Place, o.Used b.values → ∀ q,
        (o.operand b.rename.block.values).nextUse.position? = some q ↔
          NextRead b.values (o.operand b.values).source o.position (o.since b.values) q) ∧
      b.rename.block.Sound ∧ b.rename.block.handles = b.handles ∧
      List.Forall₂ Annotates b.values b.rename.block.values := by
  obtain ⟨steps, renamed, renames, spells⟩ := b.renameOk sound given (by omega)
  have labels := renamesLabels renames
  have count := renamesCount renames
  rw [labelsExposed labels] at count
  rw [renamedValues spells]
  refine ⟨_, renamed, labels.same, labels.named, labels.all, count, fun o used q => ?_,
    Chain.spellsSound spells, renamedHandles sound renames spells, renamesAnnotates renames⟩
  rw [renamesNextRead renames used]
  simp only [Nat.zero_add, exists_eq_left']
  rfl

def reusedName : Block :=
  let r := Reg.ofNat? .source
  .ofList [.loadI 1 8 (r 0), .ternary 2 .add (r 0) (r 0) (r 0), .store 3 (r 0) (r 1), .loadI 4 4 (r 0)]

theorem reusedNameFindsValues :
    ∃ summary, reusedName.rename.result = .ok summary ∧ summary.numVirtual = 4 ∧
      ((⟨1, .first⟩ : Place).operand reusedName.rename.block.values).virtual =
        ((⟨0, .third⟩ : Place).operand reusedName.rename.block.values).virtual ∧
      ((⟨1, .first⟩ : Place).operand reusedName.rename.block.values).virtual ≠
        ((⟨1, .third⟩ : Place).operand reusedName.rename.block.values).virtual ∧
      ((⟨1, .third⟩ : Place).operand reusedName.rename.block.values).nextUse.position? = some 2 := by
  obtain ⟨summary, renamed, same, -, -, count, next, -⟩ := renamingFindsValues reusedName
    (Chain.ofListSound _) (by decide +kernel) (by decide +kernel)
  refine ⟨summary, renamed, ?_, ?_, ?_, ?_⟩
  · rw [count]
    decide +kernel
  · rw [same _ _ (by decide +kernel) (by decide +kernel)]
    decide +kernel
  · rw [Ne, same _ _ (by decide +kernel) (by decide +kernel)]
    decide +kernel
  · rw [next _ (by decide +kernel)]
    have since : (⟨1, .third⟩ : Place).since reusedName.values = 2 := by decide +kernel
    rw [since]
    exact ⟨by decide, by decide +kernel, fun x after before => by simp only at after; omega,
      fun x after before => by omega⟩

end Straightline.Renaming
