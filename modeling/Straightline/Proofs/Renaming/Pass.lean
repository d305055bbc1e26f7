import Straightline.Renaming
import Straightline.Proofs.Entries
import Straightline.Proofs.Machine

/-! One step of renaming. What is known below an instruction determines the virtual registers and
next uses of its slots and what is known above it: the register written closes its range, every
register read has an open range, and the other ranges stay as they are. A step succeeds as long as
there are numbers left for three new ranges. -/
namespace Straightline

namespace Opcode

theorem writtenUnread {op : Opcode} {slot : Slot} (writes : op.writes = some slot) :
    slot ∉ op.reads := by
  cases op <;> simp_all [Opcode.writes, Opcode.reads] <;> subst writes <;> decide

theorem readsDistinct (op : Opcode) : op.reads.Nodup := by
  cases op <;> decide

theorem readsAtMostTwo (op : Opcode) : op.reads.length ≤ 2 := by
  cases op <;> decide

end Opcode

namespace Instr

variable {i : Instr}

theorem operandSet (i : Instr) (s t : Slot) (op : Operand) :
    (i.setOperand s op).operand t = if t = s then op else i.operand t := by
  by_cases same : t = s
  · rw [if_pos same, same, operandSetSame]
  · rw [if_neg same, operandSetOther i op same]

structure Relabels (i j : Instr) : Prop where
  line : j.line = i.line
  opcode : j.opcode = i.opcode
  constant : j.constant = i.constant
  inserted : j.inserted = i.inserted
  source : ∀ slot, (j.operand slot).source = (i.operand slot).source
  physical : ∀ slot, (j.operand slot).physical = (i.operand slot).physical

theorem relabelsRefl (i : Instr) : i.Relabels i :=
  ⟨rfl, rfl, rfl, rfl, fun _ => rfl, fun _ => rfl⟩

theorem relabelsTrans {i j k : Instr} (first : i.Relabels j) (second : j.Relabels k) :
    i.Relabels k where
  line := second.line.trans first.line
  opcode := second.opcode.trans first.opcode
  constant := second.constant.trans first.constant
  inserted := second.inserted.trans first.inserted
  source slot := (second.source slot).trans (first.source slot)
  physical slot := (second.physical slot).trans (first.physical slot)

theorem relabelsSet (i : Instr) (slot : Slot) (v : Option VirtualReg) (u : NextUse) :
    i.Relabels (i.setOperand slot {i.operand slot with virtual := v, nextUse := u}) := by
  have fields : ∀ t, ((i.setOperand slot {i.operand slot with virtual := v, nextUse := u}).operand
      t).source = (i.operand t).source ∧ ((i.setOperand slot {i.operand slot with
      virtual := v, nextUse := u}).operand t).physical = (i.operand t).physical := by
    intro t
    rw [operandSet]
    split
    · rename_i same
      subst same
      exact ⟨rfl, rfl⟩
    · exact ⟨rfl, rfl⟩
  refine ⟨?_, ?_, ?_, ?_, fun t => (fields t).1, fun t => (fields t).2⟩ <;> cases slot <;> rfl

end Instr

namespace Renaming

namespace Env

def Live (env : Env) (v : VirtualReg) : Prop := ∃ r : Option SourceReg, env.ranges[r]? = some v

structure Sound (env : Env) : Prop where
  bounded : ∀ (r : Option SourceReg) (v : VirtualReg), env.ranges[r]? = some v → v.number < env.minted
  distinct : ∀ (r s : Option SourceReg) (v : VirtualReg), env.ranges[r]? = some v → env.ranges[s]? = some v → r = s
  live : env.live = env.ranges.size
  counted : env.ranges.size ≤ env.maxLive

theorem nextUseEq (env : Env) (r : Option SourceReg) :
    env.nextUse r = (env.reads[r]?).getD .never := by
  rw [nextUse, Std.TreeMap.getD_eq_getD_getElem?]

def demand (env : Env) : Option (Option SourceReg) → Nat
  | some r => if env.ranges[r]? = none then env.live + 1 else 0
  | none => 0

structure Names (env : Env) (r : Option SourceReg) (v : VirtualReg) (next : Env) : Prop where
  value : env.ranges[r]? = some v ∧ next.minted = env.minted ∨
    env.ranges[r]? = none ∧ v.number = env.minted ∧ next.minted = env.minted + 1

structure Closes (env : Env) (r : Option SourceReg) (v : VirtualReg) (next : Env) : Prop
    extends Names env r v next where
  ranges : ∀ s : Option SourceReg, next.ranges[s]? = if s = r then none else env.ranges[s]?
  reads : ∀ s : Option SourceReg, next.reads[s]? = if s = r then none else env.reads[s]?
  live : next.live = next.ranges.size
  size : next.ranges.size ≤ env.ranges.size
  balance : next.minted + env.ranges.size = env.minted + next.ranges.size + 1
  maxLive : next.maxLive = env.maxLive
  maxPressure : next.maxPressure =
    if env.ranges[r]? = none then max env.maxPressure (env.live + 1) else env.maxPressure

structure Opens (env : Env) (r : Option SourceReg) (v : VirtualReg) (next : Env) : Prop
    extends Names env r v next where
  ranges : ∀ s : Option SourceReg, next.ranges[s]? = if s = r then some v else env.ranges[s]?
  reads : next.reads = env.reads
  live : next.live = next.ranges.size
  counted : next.ranges.size ≤ next.maxLive
  balance : next.minted + env.ranges.size = env.minted + next.ranges.size
  peak : next.maxLive = max env.maxLive next.ranges.size
  maxLive : env.maxLive ≤ next.maxLive
  maxPressure : next.maxPressure = env.maxPressure

theorem namesMinted {env next : Env} {r : Option SourceReg} {v : VirtualReg}
    (names : env.Names r v next) : env.minted ≤ next.minted ∧ next.minted ≤ env.minted + 1 := by
  rcases names.value with ⟨-, minted⟩ | ⟨-, -, minted⟩ <;> omega

theorem opensKept {env next : Env} {r s : Option SourceReg} {v w : VirtualReg}
    (opens : env.Opens r v next) (found : env.ranges[s]? = some w) : next.ranges[s]? = some w := by
  rw [opens.ranges]
  split
  · rename_i same
    rcases opens.value with ⟨there, -⟩ | ⟨free, -, -⟩
    · rw [← there, ← same, found]
    · rw [← same, found] at free
      contradiction
  · exact found

theorem opensOrigin {env next : Env} {r s : Option SourceReg} {v w : VirtualReg}
    (opens : env.Opens r v next) (found : next.ranges[s]? = some w) :
    s = r ∧ w = v ∨ s ≠ r ∧ env.ranges[s]? = some w := by
  rw [opens.ranges] at found
  split at found
  · rename_i same
    exact .inl ⟨same, (Option.some.inj found).symm⟩
  · rename_i differ
    exact .inr ⟨differ, found⟩

theorem mintOk (env : Env) (room : env.minted < Naming.virtual.limit) :
    ∃ v : VirtualReg, v.number = env.minted ∧
      env.mint = .ok (v, {env with minted := env.minted + 1}) := by
  refine ⟨⟨⟨env.minted, room⟩⟩, rfl, ?_⟩
  simp only [mint, Reg.ofNat, Reg.ofNat?, room, dite_true, bind, Except.bind]

theorem eraseGet {β : Type} (t : Std.TreeMap (Option SourceReg) β) (r s : Option SourceReg) :
    (t.erase r)[s]? = if s = r then none else t[s]? := by
  simp only [Std.TreeMap.getElem?_erase, Std.LawfulEqCmp.compare_eq_iff_eq, eq_comm (a := r)]

theorem eraseSize {β : Type} (t : Std.TreeMap (Option SourceReg) β) {r : Option SourceReg} {x : β}
    (found : t[r]? = some x) : (t.erase r).size + 1 = t.size := by
  have inside : t.contains r = true := by
    rw [Std.TreeMap.contains_eq_isSome_getElem?, found, Option.isSome_some]
  have some := Std.TreeMap.isEmpty_eq_false_of_contains inside
  rw [Std.TreeMap.isEmpty_eq_size_eq_zero, beq_eq_false_iff_ne] at some
  rw [Std.TreeMap.size_erase, if_pos inside]
  omega

theorem insertSize {β : Type} (t : Std.TreeMap (Option SourceReg) β) {r : Option SourceReg} (x : β)
    (missing : t[r]? = none) : (t.insert r x).size = t.size + 1 := by
  have outside : ¬ t.contains r = true := by
    rw [Std.TreeMap.contains_eq_isSome_getElem?, missing]
    simp
  rw [Std.TreeMap.size_insert, if_neg outside]

theorem insertGet {β : Type} (t : Std.TreeMap (Option SourceReg) β) (r s : Option SourceReg) (x : β) :
    (t.insert r x)[s]? = if s = r then some x else t[s]? := by
  simp only [Std.TreeMap.getElem?_insert, Std.LawfulEqCmp.compare_eq_iff_eq, eq_comm (a := r)]

theorem writeOk {env : Env} (live : env.live = env.ranges.size)
    (room : env.minted < Naming.virtual.limit) (op : Operand) :
    ∃ v next, env.write op = .ok ({op with virtual := some v, nextUse := env.nextUse op.source}, next) ∧
      env.Closes op.source v next := by
  cases range : env.ranges[op.source]? with
  | some v =>
    -- An open range is one of those counted, so there is one to take away.
    have smaller := eraseSize env.ranges range
    have some : env.live ≠ 0 := by omega
    refine ⟨v, {env with
        ranges := env.ranges.erase op.source, live := env.live - 1, reads := env.reads.erase op.source},
      by simp only [write, closeRange, range, some, ↓reduceIte, bind, Except.bind],
      ⟨.inl ⟨range, rfl⟩⟩, eraseGet env.ranges op.source, eraseGet env.reads op.source, ?_,
      Std.TreeMap.size_erase_le, ?_, rfl, ?_⟩
    · simp only
      omega
    · simp only
      omega
    · simp [range]
  | none =>
    obtain ⟨v, number, minted⟩ := mintOk
      {env with maxPressure := max env.maxPressure (env.live + 1)} room
    refine ⟨v, {env with
        minted := env.minted + 1, maxPressure := max env.maxPressure (env.live + 1),
        reads := env.reads.erase op.source},
      by simp only [write, closeRange, range, minted, bind, Except.bind],
      ⟨.inr ⟨range, number, rfl⟩⟩, ?_, eraseGet env.reads op.source, live, Nat.le_refl _,
      by simp only; omega, rfl, ?_⟩
    · intro s
      split
      · rename_i same
        rw [same]
        exact range
      · rfl
    · simp [range]

theorem readOk {env : Env} (live : env.live = env.ranges.size)
    (counted : env.ranges.size ≤ env.maxLive) (room : env.minted < Naming.virtual.limit)
    (op : Operand) :
    ∃ v next, env.read op = .ok ({op with virtual := some v, nextUse := env.nextUse op.source}, next) ∧
      env.Opens op.source v next := by
  cases range : env.ranges[op.source]? with
  | some v =>
    refine ⟨v, env, by simp only [read, openRange, range, bind, Except.bind], ⟨.inl ⟨range, rfl⟩⟩, ?_,
      rfl, live, counted, rfl, (Nat.max_eq_left counted).symm, Nat.le_refl _, rfl⟩
    intro s
    split
    · rename_i same
      rw [same, range]
    · rfl
  | none =>
    obtain ⟨v, number, minted⟩ := mintOk env room
    have larger := insertSize env.ranges v range
    have live' : env.live + 1 = (env.ranges.insert op.source v).size := by rw [larger, live]
    refine ⟨v, {env with
        minted := env.minted + 1, ranges := env.ranges.insert op.source v, live := env.live + 1,
        maxLive := max env.maxLive (env.live + 1)},
      by simp only [read, openRange, range, minted, bind, Except.bind],
      ⟨.inr ⟨range, number, rfl⟩⟩, fun s => insertGet env.ranges op.source s v, rfl, live', ?_, ?_, ?_,
      Nat.le_max_left .., rfl⟩
    · rw [← live']
      exact Nat.le_max_right ..
    · simp only [larger]
      omega
    · rw [← live']

theorem closesSound {env next : Env} {r : Option SourceReg} {v : VirtualReg} (sound : env.Sound)
    (closes : env.Closes r v next) : next.Sound := by
  have old : ∀ (s : Option SourceReg) (w : VirtualReg), next.ranges[s]? = some w → env.ranges[s]? = some w := by
    intro s w found
    rw [closes.ranges] at found
    split at found
    · contradiction
    · exact found
  refine ⟨?_, ?_, closes.live, ?_⟩
  · intro s w found
    have below := sound.bounded s w (old s w found)
    rcases closes.value with ⟨-, minted⟩ | ⟨-, -, minted⟩ <;> omega
  · exact fun s t w first second => sound.distinct s t w (old s w first) (old t w second)
  · rw [closes.maxLive]
    exact Nat.le_trans closes.size sound.counted

theorem opensSound {env next : Env} {r : Option SourceReg} {v : VirtualReg} (sound : env.Sound)
    (opens : env.Opens r v next) : next.Sound := by
  -- A range with the number of the one just opened is that one: an older number is taken by its own
  -- register, and a new one is above all that are in use.
  have only : ∀ s : Option SourceReg, env.ranges[s]? = some v → s = r := by
    intro s found
    rcases opens.value with ⟨there, -⟩ | ⟨-, number, -⟩
    · exact sound.distinct s r v found there
    · have below := sound.bounded s v found
      omega
  refine ⟨?_, ?_, opens.live, opens.counted⟩
  · intro s w found
    rcases opens.value with ⟨there, minted⟩ | ⟨-, number, minted⟩
    · rcases opensOrigin opens found with ⟨-, rfl⟩ | ⟨-, old⟩
      · rw [minted]
        exact sound.bounded r w there
      · rw [minted]
        exact sound.bounded s w old
    · rcases opensOrigin opens found with ⟨-, rfl⟩ | ⟨-, old⟩
      · omega
      · have below := sound.bounded s w old
        omega
  · intro s t w first second
    rcases opensOrigin opens first with ⟨rfl, rfl⟩ | ⟨differ, old⟩
    · rcases opensOrigin opens second with ⟨rfl, -⟩ | ⟨-, other⟩
      · rfl
      · exact (only t other).symm
    · rcases opensOrigin opens second with ⟨rfl, rfl⟩ | ⟨-, other⟩
      · exact only s old
      · exact sound.distinct s t w old other

theorem markAllOk {position : Nat} (inRange : position < positionLimit) (env : Env)
    (rs : List (Option SourceReg)) :
    ∃ reads, rs.foldlM (Env.mark · position) env = .ok {env with reads} ∧
      ∀ s : Option SourceReg, reads[s]? =
        if s ∈ rs then some (.read ⟨position, inRange⟩) else env.reads[s]? := by
  induction rs generalizing env with
  | nil => exact ⟨env.reads, rfl, by simp⟩
  | cons r rs ih =>
    have first : env.mark position r =
        .ok {env with reads := env.reads.insert r (.read ⟨position, inRange⟩)} := by
      simp only [mark, NextUse.ofNat, inRange, dite_true, bind, Except.bind]
    obtain ⟨reads, rest, lookup⟩ := ih {env with
      reads := env.reads.insert r (.read ⟨position, inRange⟩)}
    refine ⟨reads, by simpa only [List.foldlM_cons, first, bind, Except.bind] using rest, ?_⟩
    intro s
    rw [lookup, insertGet]
    by_cases later : s ∈ rs <;> by_cases same : s = r <;> simp [later, same]

end Env

structure OpensAll (slots : List Slot) (i : Instr) (env : Env) (j : Instr) (next : Env) : Prop where
  relabels : i.Relabels j
  read : ∀ slot ∈ slots, ∃ v, (j.operand slot).virtual = some v ∧
    (j.operand slot).nextUse = env.nextUse (i.operand slot).source ∧
    next.ranges[(i.operand slot).source]? = some v
  unread : ∀ slot, slot ∉ slots → j.operand slot = i.operand slot
  kept : ∀ (r : Option SourceReg) (v : VirtualReg), env.ranges[r]? = some v →
    next.ranges[r]? = some v
  origin : ∀ (r : Option SourceReg) (v : VirtualReg), next.ranges[r]? = some v →
    env.ranges[r]? = some v ∨ env.minted ≤ v.number ∧ ∃ slot ∈ slots, (i.operand slot).source = r
  reads : next.reads = env.reads
  minted : env.minted ≤ next.minted ∧ next.minted ≤ env.minted + slots.length
  fresh : ∀ x, env.minted ≤ x → x < next.minted →
    ∃ slot ∈ slots, ∃ v, (j.operand slot).virtual = some v ∧ v.number = x
  balance : next.minted + env.ranges.size = env.minted + next.ranges.size
  maxLive : env.maxLive ≤ next.maxLive
  peak : next.maxLive = max env.maxLive next.ranges.size
  maxPressure : next.maxPressure = env.maxPressure
  sound : next.Sound

section
variable {slot : Slot} {slots : List Slot} {i j : Instr} {env next last : Env} {v : VirtualReg}
  (opens : env.Opens (i.operand slot).source v next)
  (rest : OpensAll slots (i.setOperand slot {i.operand slot with
    virtual := some v, nextUse := env.nextUse (i.operand slot).source}) next j last)
include opens rest

theorem opensAllHead : (j.operand slot).virtual = some v ∧
    (j.operand slot).nextUse = env.nextUse (i.operand slot).source ∧
    last.ranges[(i.operand slot).source]? = some v := by
  have first := i.relabelsSet slot (some v) (env.nextUse (i.operand slot).source)
  have here : last.ranges[(i.operand slot).source]? = some v :=
    rest.kept _ v (by simp [opens.ranges])
  -- A slot that comes again has the range of its register again.
  by_cases later : slot ∈ slots
  · obtain ⟨w, virtual, nextUse, range⟩ := rest.read slot later
    rw [first.source] at range nextUse
    rw [here] at range
    refine ⟨by rw [virtual, range], ?_, here⟩
    simp only [nextUse, Env.nextUse, opens.reads]
  · simp [rest.unread slot later, Instr.operandSet, here]

theorem opensAllOrigin {r : Option SourceReg} {w : VirtualReg} (found : last.ranges[r]? = some w) :
    env.ranges[r]? = some w ∨
      env.minted ≤ w.number ∧ ∃ t ∈ slot :: slots, (i.operand t).source = r := by
  have first := i.relabelsSet slot (some v) (env.nextUse (i.operand slot).source)
  have grows := Env.namesMinted opens.toNames
  rcases rest.origin r w found with old | ⟨new, t, inside, same⟩
  · rcases Env.opensOrigin opens old with ⟨same, rfl⟩ | ⟨-, old⟩
    · rcases opens.value with ⟨there, -⟩ | ⟨-, number, -⟩
      · exact .inl (same ▸ there)
      · exact .inr ⟨by omega, slot, List.mem_cons_self, same.symm⟩
    · exact .inl old
  · exact .inr ⟨by omega, t, List.mem_cons_of_mem _ inside, (first.source t) ▸ same⟩

theorem opensAllFresh {x : Nat} (old : env.minted ≤ x) (new : x < last.minted) :
    ∃ t ∈ slot :: slots, ∃ w, (j.operand t).virtual = some w ∧ w.number = x := by
  rcases Nat.lt_or_ge x next.minted with here | later
  · refine ⟨slot, List.mem_cons_self, v, (opensAllHead opens rest).1, ?_⟩
    rcases opens.value with ⟨-, minted⟩ | ⟨-, number, minted⟩ <;> omega
  · obtain ⟨t, inside, found⟩ := rest.fresh x later new
    exact ⟨t, List.mem_cons_of_mem _ inside, found⟩

theorem opensAllCons : OpensAll (slot :: slots) i env j last := by
  have first := i.relabelsSet slot (some v) (env.nextUse (i.operand slot).source)
  have sameNext : ∀ r, next.nextUse r = env.nextUse r := fun r => by simp only [Env.nextUse, opens.reads]
  have grows := Env.namesMinted opens.toNames
  have minted := rest.minted
  have balance := rest.balance
  have balance' := opens.balance
  have peak := opens.peak
  refine ⟨Instr.relabelsTrans first rest.relabels, ?_, ?_, fun r w found => rest.kept r w
    (Env.opensKept opens found), fun r w => opensAllOrigin opens rest, rest.reads.trans opens.reads,
    ?_, fun x => opensAllFresh opens rest, by omega, Nat.le_trans opens.maxLive rest.maxLive, ?_,
    rest.maxPressure.trans opens.maxPressure, rest.sound⟩
  · intro t inside
    rcases List.mem_cons.mp inside with rfl | later
    · exact ⟨v, opensAllHead opens rest⟩
    · simpa only [first.source, sameNext] using rest.read t later
  · intro t outside
    rw [List.mem_cons, not_or] at outside
    rw [rest.unread t outside.2, Instr.operandSet, if_neg outside.1]
  · rw [List.length_cons]
    omega
  · rw [rest.peak, peak]
    omega

end

theorem readAllOk {env : Env} (sound : env.Sound) (slots : List Slot) (i : Instr)
    (room : env.minted + slots.length ≤ Naming.virtual.limit) :
    ∃ j next, slots.foldlM (onSlot Env.read) (i, env) = .ok (j, next) ∧
      OpensAll slots i env j next := by
  induction slots generalizing i env with
  | nil =>
    refine ⟨i, env, rfl, i.relabelsRefl, by simp, fun _ _ => rfl, fun _ _ => id, fun _ _ => .inl, rfl,
      by simp, fun x old new => absurd new (Nat.not_lt.mpr old), rfl, Nat.le_refl _,
      (Nat.max_eq_left sound.counted).symm, rfl, sound⟩
  | cons slot slots ih =>
    simp only [List.length_cons] at room
    obtain ⟨v, next, ok, opens⟩ := Env.readOk sound.live sound.counted (by omega) (i.operand slot)
    have grows := Env.namesMinted opens.toNames
    obtain ⟨j, last, rest, all⟩ := ih (Env.opensSound sound opens) (i.setOperand slot _) (by omega)
    refine ⟨j, last, ?_, opensAllCons opens all⟩
    simpa only [List.foldlM_cons, onSlot, ok, bind, Except.bind] using rest

structure ClosesAll (i : Instr) (env : Env) (j : Instr) (next : Env) : Prop where
  relabels : i.Relabels j
  written : ∀ slot, i.opcode.writes = some slot → ∃ v, (j.operand slot).virtual = some v ∧
    (j.operand slot).nextUse = env.nextUse (i.operand slot).source ∧ v.number < next.minted ∧
    (env.ranges[(i.operand slot).source]? = some v ∨ env.ranges[(i.operand slot).source]? = none ∧
      v.number = env.minted ∧ env.live + 1 ≤ next.maxPressure)
  unwritten : ∀ slot, i.opcode.writes ≠ some slot → j.operand slot = i.operand slot
  ranges : ∀ r : Option SourceReg, next.ranges[r]? =
    if i.writtenReg .source = some r then none else env.ranges[r]?
  reads : ∀ r : Option SourceReg, next.reads[r]? =
    if i.writtenReg .source = some r then none else env.reads[r]?
  minted : env.minted ≤ next.minted ∧ next.minted ≤ env.minted + 1
  fresh : ∀ x, env.minted ≤ x → x < next.minted →
    ∃ slot, i.opcode.writes = some slot ∧ ∃ v, (j.operand slot).virtual = some v ∧ v.number = x
  balance : next.minted + env.ranges.size =
    env.minted + next.ranges.size + i.opcode.writes.toList.length
  maxLive : next.maxLive = env.maxLive
  maxPressure : env.maxPressure ≤ next.maxPressure
  pressure : next.maxPressure = max env.maxPressure (env.demand (i.writtenReg .source))
  sound : next.Sound

theorem writeAllOk {env : Env} (sound : env.Sound) (i : Instr)
    (room : env.minted < Naming.virtual.limit) :
    ∃ j next, i.opcode.writes.toList.foldlM (onSlot Env.write) (i, env) = .ok (j, next) ∧
      ClosesAll i env j next := by
  cases writes : i.opcode.writes with
  | none =>
    have unwritten : i.writtenReg .source = none := Instr.writtenRegNone writes
    exact ⟨i, env, rfl, i.relabelsRefl, by simp [writes], fun _ _ => rfl, by simp [unwritten],
      by simp [unwritten], by omega, fun x old new => absurd new (Nat.not_lt.mpr old), by simp [writes],
      rfl, Nat.le_refl _, by simp [unwritten, Env.demand], sound⟩
  | some slot =>
    have written : i.writtenReg .source = some (i.operand slot).source :=
      Instr.writtenRegSome writes
    obtain ⟨v, next, ok, closes⟩ := Env.writeOk sound.live room (i.operand slot)
    refine ⟨i.setOperand slot _, next, ?_, i.relabelsSet slot (some v) (env.nextUse (i.operand slot).source),
      ?_, ?_, ?_, ?_, ?_, ?_, ?_, closes.maxLive, ?_, ?_,
      Env.closesSound sound closes⟩
    · simp only [Option.toList_some, List.foldlM_cons, List.foldlM_nil, onSlot, ok, bind, Except.bind,
        pure, Except.pure]
    · intro t same
      obtain rfl : slot = t := Option.some.inj (writes.symm.trans same)
      refine ⟨v, by simp [Instr.operandSet], by simp [Instr.operandSet], ?_, ?_⟩
      · rcases closes.value with ⟨there, minted⟩ | ⟨-, number, minted⟩
        · rw [minted]
          exact sound.bounded _ v there
        · omega
      · rcases closes.value with ⟨there, -⟩ | ⟨free, number, -⟩
        · exact .inl there
        · refine .inr ⟨free, number, ?_⟩
          rw [closes.maxPressure, if_pos free]
          exact Nat.le_max_right ..
    · intro t differ
      rw [Instr.operandSet, if_neg]
      rintro rfl
      exact differ writes
    · intro r
      simp only [closes.ranges, written, Option.some.injEq, eq_comm (a := r)]
    · intro r
      simp only [closes.reads, written, Option.some.injEq, eq_comm (a := r)]
    · rcases closes.value with ⟨-, minted⟩ | ⟨-, -, minted⟩ <;> omega
    · intro x old new
      refine ⟨slot, writes, v, by simp [Instr.operandSet], ?_⟩
      rcases closes.value with ⟨-, minted⟩ | ⟨-, number, minted⟩ <;> omega
    · simpa [writes] using closes.balance
    · rw [closes.maxPressure]
      split <;> omega
    · rw [closes.maxPressure, written, Env.demand]
      split <;> simp

structure Passes (position : Nat) (below : Env) (i j : Instr) (above : Env) : Prop where
  relabels : i.Relabels j
  unused : ∀ slot, slot ∉ i.opcode.reads → i.opcode.writes ≠ some slot →
    j.operand slot = i.operand slot
  written : ∀ slot, i.opcode.writes = some slot → ∃ v, (j.operand slot).virtual = some v ∧
    (j.operand slot).nextUse = below.nextUse (i.operand slot).source ∧ v.number < above.minted ∧
    (∀ (r : Option SourceReg) (w : VirtualReg), above.ranges[r]? = some w →
      below.ranges[r]? = some w ∧ i.writtenReg .source ≠ some r ∨ v.number < w.number) ∧
    (below.ranges[(i.operand slot).source]? = some v ∨
      below.ranges[(i.operand slot).source]? = none ∧ v.number = below.minted ∧
        below.live + 1 ≤ above.maxPressure)
  read : ∀ slot ∈ i.opcode.reads, ∃ v, (j.operand slot).virtual = some v ∧
    above.ranges[(i.operand slot).source]? = some v ∧ (j.operand slot).nextUse =
      if i.writtenReg .source = some (i.operand slot).source then .never
      else below.nextUse (i.operand slot).source
  kept : ∀ (r : Option SourceReg) (v : VirtualReg), below.ranges[r]? = some v →
    i.writtenReg .source ≠ some r → above.ranges[r]? = some v
  origin : ∀ (r : Option SourceReg) (v : VirtualReg), above.ranges[r]? = some v →
    below.ranges[r]? = some v ∧ i.writtenReg .source ≠ some r ∨
      r ∈ i.readRegs .source ∧ below.minted ≤ v.number
  reads : ∀ (inRange : position < positionLimit) (r : Option SourceReg), above.reads[r]? =
    if r ∈ i.readRegs .source then some (.read ⟨position, inRange⟩)
    else if i.writtenReg .source = some r then none else below.reads[r]?
  minted : below.minted ≤ above.minted ∧ above.minted ≤ below.minted + 3
  fresh : ∀ x, below.minted ≤ x → x < above.minted →
    ∃ slot, (slot ∈ i.opcode.reads ∨ i.opcode.writes = some slot) ∧
      ∃ v, (j.operand slot).virtual = some v ∧ v.number = x
  balance : above.minted + below.ranges.size =
    below.minted + above.ranges.size + i.opcode.writes.toList.length
  maxLive : below.maxLive ≤ above.maxLive
  peak : above.maxLive = max below.maxLive above.ranges.size
  maxPressure : below.maxPressure ≤ above.maxPressure
  pressure : above.maxPressure = max below.maxPressure (below.demand (i.writtenReg .source))
  sound : above.Sound

section
variable {position : Nat} {below closed opened : Env} {i middle j : Instr}
  (closes : ClosesAll i below middle closed) (opens : OpensAll i.opcode.reads middle closed j opened)
include closes opens

theorem passOrigin {r : Option SourceReg} {v : VirtualReg} (found : opened.ranges[r]? = some v) :
    below.ranges[r]? = some v ∧ i.writtenReg .source ≠ some r ∨
      r ∈ i.readRegs .source ∧ closed.minted ≤ v.number := by
  rcases opens.origin r v found with old | ⟨new, slot, inside, same⟩
  · rw [closes.ranges] at old
    split at old
    · contradiction
    · rename_i differ
      exact .inl ⟨old, differ⟩
  · exact .inr ⟨Instr.memReadRegs.mpr ⟨slot, inside, by rw [← same, closes.relabels.source]; rfl⟩, new⟩

theorem passWritten {slot : Slot} (writes : i.opcode.writes = some slot) :
    ∃ v, (j.operand slot).virtual = some v ∧
      (j.operand slot).nextUse = below.nextUse (i.operand slot).source ∧ v.number < opened.minted ∧
      (∀ (r : Option SourceReg) (w : VirtualReg), opened.ranges[r]? = some w →
        below.ranges[r]? = some w ∧ i.writtenReg .source ≠ some r ∨ v.number < w.number) ∧
      (below.ranges[(i.operand slot).source]? = some v ∨
        below.ranges[(i.operand slot).source]? = none ∧ v.number = below.minted ∧
          below.live + 1 ≤ opened.maxPressure) := by
  obtain ⟨v, virtual, next, bound, value⟩ := closes.written slot writes
  have same := opens.unread slot (Opcode.writtenUnread writes)
  have more := opens.minted
  refine ⟨v, same ▸ virtual, same ▸ next, by omega, fun r w found => ?_, ?_⟩
  · rcases passOrigin closes opens found with old | ⟨-, new⟩
    · exact .inl old
    · exact .inr (by omega)
  · rw [opens.maxPressure]
    exact value

theorem passRead {slot : Slot} (inside : slot ∈ i.opcode.reads) :
    ∃ v, (j.operand slot).virtual = some v ∧ opened.ranges[(i.operand slot).source]? = some v ∧
      (j.operand slot).nextUse = if i.writtenReg .source = some (i.operand slot).source then .never
        else below.nextUse (i.operand slot).source := by
  obtain ⟨v, virtual, next, range⟩ := opens.read slot inside
  rw [closes.relabels.source] at next range
  refine ⟨v, virtual, range, ?_⟩
  rw [next, Env.nextUseEq, closes.reads]
  split
  · rfl
  · rw [Env.nextUseEq]

theorem passFresh {x : Nat} (old : below.minted ≤ x) (new : x < opened.minted) :
    ∃ slot, (slot ∈ i.opcode.reads ∨ i.opcode.writes = some slot) ∧
      ∃ v, (j.operand slot).virtual = some v ∧ v.number = x := by
  rcases Nat.lt_or_ge x closed.minted with here | later
  · obtain ⟨slot, writes, v, virtual, number⟩ := closes.fresh x old here
    exact ⟨slot, .inr writes, v, opens.unread slot (Opcode.writtenUnread writes) ▸ virtual, number⟩
  · obtain ⟨slot, inside, found⟩ := opens.fresh x later new
    exact ⟨slot, .inl inside, found⟩

theorem passesOk {reads : Std.TreeMap (Option SourceReg) NextUse}
    (marked : ∀ (inRange : position < positionLimit) (r : Option SourceReg), reads[r]? =
      if r ∈ i.readRegs .source then some (.read ⟨position, inRange⟩) else opened.reads[r]?) :
    Passes position below i j {opened with reads} := by
  have few := Opcode.readsAtMostTwo i.opcode
  have grows := closes.minted
  have more := opens.minted
  have balance := closes.balance
  have balance' := opens.balance
  refine ⟨Instr.relabelsTrans closes.relabels opens.relabels, ?_,
    fun slot => passWritten closes opens, fun slot => passRead closes opens, ?_, ?_, ?_,
    ⟨by simp only; omega, by simp only; omega⟩, fun x => passFresh closes opens, by simp only; omega,
    closes.maxLive ▸ opens.maxLive, closes.maxLive ▸ opens.peak, ?_,
    opens.maxPressure.trans closes.pressure,
    ⟨opens.sound.bounded, opens.sound.distinct, opens.sound.live, opens.sound.counted⟩⟩
  · intro slot unread unwritten
    rw [opens.unread slot unread, closes.unwritten slot unwritten]
  · intro r v found differ
    exact opens.kept r v (by rw [closes.ranges, if_neg differ]; exact found)
  · intro r v found
    rcases passOrigin closes opens found with old | ⟨inside, new⟩
    · exact .inl old
    · exact .inr ⟨inside, by omega⟩
  · intro inRange r
    simp only [marked inRange, opens.reads, closes.reads]
  · simp only [opens.maxPressure, closes.maxPressure]

end

theorem renameInstrOk (position : Nat) {below : Env} {i : Instr} (given : i.inserted = false)
    (sound : below.Sound) (room : below.minted + 3 ≤ Naming.virtual.limit)
    (inRange : position < positionLimit) :
    ∃ j above, renameInstr position i below = .ok (j, above) ∧ Passes position below i j above := by
  have few := Opcode.readsAtMostTwo i.opcode
  obtain ⟨middle, closed, wrote, closes⟩ := writeAllOk sound i (by omega)
  have grows := closes.minted
  obtain ⟨j, opened, read, opens⟩ := readAllOk closes.sound i.opcode.reads middle (by omega)
  obtain ⟨reads, marked, lookup⟩ := Env.markAllOk inRange opened (i.readOperands.map Operand.source)
  refine ⟨j, {opened with reads}, ?_, passesOk closes opens fun _ => lookup⟩
  simp only [renameInstr, given, Bool.false_eq_true, if_false, wrote, read, marked, bind, Except.bind]

end Renaming
end Straightline
