import Straightline.Proofs.Allocation.Ledger

/-! The moves of an allocation on its ledger. A value leaves its register, a register is taken, a
value is brought into one, an operand is resolved, a value is defined. The tables agree before and
after every move: a value's home is the register that holds it, and the spare registers are those
that hold nothing. A value that is in a spill slot is clean and is no constant, and each value owns
one slot at most. -/
namespace Straightline.Allocation

inductive Evicts (plan : Plan) (site : Site) (v : VirtualReg) (p : PhysicalReg) (l : Ledger) :
    Ledger → Prop where
  | kept (cheap : (l.record v).cost ≠ .dirty) : Evicts plan site v p l {l with
      record := Function.update l.record v {l.record v with home := none, status := .clean}
      holder := Function.update l.holder p none
      stats := {l.stats with evictions := l.stats.evictions + 1}}
  | stored {a : PhysicalReg} {h k : Handle} (costly : (l.record v).cost = .dirty)
      (address : plan.address = some a)
      (room : plan.options.base.toNat + slotSize * (l.owners.length + 1) < 4294967296) :
      Evicts plan site v p l {l with
        record := Function.update l.record v
          {l.record v with
            home := none, slot := some (plan.slotAt l.owners.length), status := .clean}
        holder := Function.update l.holder p none
        owners := l.owners ++ [v]
        stats := {l.stats with
          evictions := l.stats.evictions + 1
          stores := l.stats.stores + 1
          inserted := l.stats.inserted + 1 + 1}
        done := l.done ++ [(h, .insertedLoadI site.line (plan.slotAt l.owners.length) (some a))] ++
          [(k, .insertedStore site.line (some p) (some a))]}

theorem positionsBegin : 0 < positionLimit := by decide

namespace Ledger

def nextUse (l : Ledger) (p : PhysicalReg) : NextUse :=
  match l.holder p with
  | some o => o.nextUse
  | none => .never

def victim (l : Ledger) (p : PhysicalReg) : Option Victim :=
  (l.holder p).map fun o => ⟨p, o.value, (l.record o.value).cost, o.nextUse⟩

def candidates (l : Ledger) (plan : Plan) : List PhysicalReg :=
  (Reg.below plan.usable).filter fun p => !l.pinned.contains p

def farthest (l : Ledger) (ps : List PhysicalReg) : NextUse :=
  (ps.map l.nextUse).foldl (fun a b => if a.rank < b.rank then b else a)
    (.read ⟨0, positionsBegin⟩)

def contenders (l : Ledger) (plan : Plan) : List PhysicalReg :=
  (l.candidates plan).filter fun p =>
    (l.nextUse p).within plan.options.window.toNat (l.farthest (l.candidates plan))

end Ledger

inductive Takes (plan : Plan) (site : Site) (l : Ledger) : PhysicalReg → Ledger → Prop where
  | free {p : PhysicalReg} {free : List PhysicalReg} (first : l.free = p :: free) :
      Takes plan site l p {l with free}
  | evicted {p : PhysicalReg} {o : Occupant} {m : Ledger} (full : l.free = [])
      (held : l.holder p = some o) (unpinned : l.pinned.contains p = false)
      (evicts : Evicts plan site o.value p l m)
      (chosen : Victim.best ((l.contenders plan).filterMap l.victim) = l.victim p) :
      Takes plan site l p m

inductive Brings (plan : Plan) (site : Site) (v : VirtualReg) (p : PhysicalReg) (u : NextUse)
    (l : Ledger) : Ledger → Prop where
  | remade {c : Word} {h : Handle} (constant : (l.record v).constant = some c) :
      Brings plan site v p u l {l with
        record := Function.update l.record v {l.record v with home := some p, status := .dirty}
        holder := Function.update l.holder p (some ⟨v, u⟩)
        stats := {l.stats with
          recomputations := l.stats.recomputations + 1, inserted := l.stats.inserted + 1}
        done := l.done ++ [(h, .insertedLoadI site.line c (some p))]}
  | adopted (varies : (l.record v).constant = none) (new : (l.record v).status = .unknown) :
      Brings plan site v p u l {l with
        record := Function.update l.record v {l.record v with home := some p, status := .dirty}
        holder := Function.update l.holder p (some ⟨v, u⟩)}
  | reloaded {a : PhysicalReg} {w : Word} {h k : Handle} (varies : (l.record v).constant = none)
      (saved : (l.record v).status = .clean) (slot : (l.record v).slot = some w)
      (address : plan.address = some a) : Brings plan site v p u l {l with
        record := Function.update l.record v {l.record v with home := some p, status := .clean}
        holder := Function.update l.holder p (some ⟨v, u⟩)
        stats := {l.stats with
          restores := l.stats.restores + 1, inserted := l.stats.inserted + 1 + 1}
        done := l.done ++ [(h, .insertedLoadI site.line w (some a))] ++
          [(k, .insertedLoad site.line (some a) (some p))]}

inductive Fetches (plan : Plan) (site : Site) (v : VirtualReg) (u : NextUse) (l : Ledger) :
    PhysicalReg → Ledger → Prop where
  | resident {p : PhysicalReg} (home : (l.record v).home = some p) : Fetches plan site v u l p l
  | brought {p : PhysicalReg} {m k : Ledger} (away : (l.record v).home = none)
      (takes : Takes plan site l p m) (brings : Brings plan site v p u m k) :
      Fetches plan site v u l p k

inductive Stops (plan : Plan) (n : Nat) (site : Site) (l : Ledger) : Stop → Ledger → Prop where
  | crowded (full : l.free = [])
      (pinned : ∀ p : PhysicalReg, p.number < plan.usable → l.pinned.contains p = true) :
      Stops plan n site l (.error (.tooManyLive site.handle site.line)) l
  | addressless {v : VirtualReg} (full : l.free = []) (address : plan.address = none) :
      Stops plan n site l (.error (.unexpectedSpill site.line v))
        {l with stats := {l.stats with evictions := l.stats.evictions + 1}}
  | overflow {v : VirtualReg} (full : l.free = []) (known : v.number < n)
      (slotless : (l.record v).slot = none)
      (large : 4294967296 ≤ plan.options.base.toNat + slotSize * (l.owners.length + 1)) :
      Stops plan n site l (.fault .spillAddressOverflow)
        {l with stats := {l.stats with evictions := l.stats.evictions + 1}}

namespace Ledger

def assign (l : Ledger) (slot : Slot) (p : PhysicalReg) : Ledger :=
  {l with rest := l.rest.modifyHead fun e => (e.1, e.2.setPhysical slot p)}

def resolve (l : Ledger) (slot : Slot) (p : PhysicalReg) (u : NextUse) : Ledger :=
  {l.assign slot p with
    pinned := l.pinned.insert p
    holder := Function.update l.holder p ((l.holder p).map fun o => {o with nextUse := u})}

def unpin (l : Ledger) : Ledger := {l with pinned := .empty}

def release (l : Ledger) (v : VirtualReg) : Ledger :=
  match (l.record v).home with
  | some p => {l with
      record := Function.update l.record v {l.record v with home := none}
      holder := Function.update l.holder p none
      free := p :: l.free}
  | none => l

def define (l : Ledger) (i : Instr) (slot : Slot) (v : VirtualReg) (p : PhysicalReg) : Ledger :=
  {l.assign slot p with
    record := Function.update l.record v {l.record v with
      home := some p
      constant := if i.opcode = .loadI then some i.constant else none
      status := .dirty}
    holder := Function.update l.holder p (some ⟨v, (i.operand slot).nextUse⟩)}

def advance (l : Ledger) : Ledger :=
  {l with done := l.done ++ l.rest.take 1, rest := l.rest.drop 1}

end Ledger

inductive Resolves (plan : Plan) (site : Site) (i : Instr) :
    List Slot → Ledger → Ledger → Prop where
  | nil (l : Ledger) : Resolves plan site i [] l l
  | cons {slot : Slot} {slots : List Slot} {v : VirtualReg} {p : PhysicalReg} {l m k : Ledger}
      (virtual : (i.operand slot).virtual = some v)
      (fetches : Fetches plan site v (i.operand slot).nextUse l p m)
      (rest : Resolves plan site i slots (m.resolve slot p (i.operand slot).nextUse) k) :
      Resolves plan site i (slot :: slots) l k

inductive Unresolved (plan : Plan) (n : Nat) (site : Site) (i : Instr) (stop : Stop) :
    List Slot → Ledger → Ledger → Prop where
  | here {slot : Slot} {slots : List Slot} {v : VirtualReg} {l m : Ledger}
      (virtual : (i.operand slot).virtual = some v) (away : (l.record v).home = none)
      (stops : Stops plan n site l stop m) : Unresolved plan n site i stop (slot :: slots) l m
  | later {slot : Slot} {slots : List Slot} {v : VirtualReg} {p : PhysicalReg} {l m k : Ledger}
      (virtual : (i.operand slot).virtual = some v)
      (fetches : Fetches plan site v (i.operand slot).nextUse l p m)
      (rest : Unresolved plan n site i stop slots (m.resolve slot p (i.operand slot).nextUse) k) :
      Unresolved plan n site i stop (slot :: slots) l k

namespace Ledger

def Pins (l : Ledger) : Prop := ∀ q, l.pinned.contains q = true → l.holder q ≠ none

def Ready (l : Ledger) (v : VirtualReg) : Prop :=
  (l.record v).home = none → (l.record v).status ≠ .dirty

end Ledger

structure Value.Kept (x : Value) : Prop where
  clean : x.status = .clean → x.constant = none → x.slot.isSome
  slot : x.slot.isSome → x.status = .clean ∧ x.constant = none

theorem costDirty {x : Value} : x.cost = .dirty ↔ x.constant = none ∧ x.status ≠ .clean := by
  unfold Value.cost
  cases x.constant with
  | some c => simp
  | none => by_cases clean : x.status = .clean <;> simp [clean]

theorem costClean {x : Value} (cost : x.cost = .clean) : x.status = .clean := by
  unfold Value.cost at cost
  split at cost
  · contradiction
  · split at cost
    · assumption
    · contradiction

theorem dirtySlotless {x : Value} (kept : x.Kept) (unclean : x.status ≠ .clean) :
    x.slot = none := by
  by_contra slot
  exact unclean (kept.slot (Option.isSome_iff_ne_none.mpr slot)).1

structure Tables (plan : Plan) (n : Nat) (l : Ledger) (spare : List PhysicalReg) : Prop where
  home : ∀ v p, (l.record v).home = some p ↔ ∃ u, l.holder p = some ⟨v, u⟩
  held : ∀ p o, l.holder p = some o → p.number < plan.usable ∧ o.value.number < n
  empty : ∀ p, p ∈ spare ↔ p.number < plan.usable ∧ l.holder p = none
  nodup : spare.Nodup

structure Saved (plan : Plan) (n : Nat) (l : Ledger) : Prop where
  kept : ∀ v, (l.record v).Kept
  slots : ∀ v w, (l.record v).slot = some w ↔ ∃ j, l.owners[j]? = some v ∧ w = plan.slotAt j
  nodup : l.owners.Nodup
  known : ∀ v ∈ l.owners, v.number < n
  address : l.owners ≠ [] → plan.address.isSome
  room : l.owners ≠ [] → plan.options.base.toNat + slotSize * l.owners.length < 4294967296

section
variable {plan : Plan} {n : Nat} {site : Site} {l m k : Ledger} {spare : List PhysicalReg}
  {v : VirtualReg} {p : PhysicalReg} {u : NextUse} {o : Occupant} {x : Value}

theorem tablesLeave (tables : Tables plan n l spare) (held : l.holder p = some ⟨v, u⟩)
    (away : x.home = none) (record : m.record = Function.update l.record v x)
    (holder : m.holder = Function.update l.holder p none) : Tables plan n m (p :: spare) := by
  have home := (tables.home v p).mpr ⟨u, held⟩
  refine ⟨?_, ?_, ?_, ?_⟩
  · intro w q
    rw [record, holder]
    by_cases same : w = v
    · subst same
      rw [Function.update_self, away]
      refine ⟨fun none => by simp at none, fun ⟨u', found⟩ => ?_⟩
      by_cases here : q = p
      · subst here
        simp at found
      · rw [Function.update_of_ne here] at found
        have there := (tables.home w q).mpr ⟨u', found⟩
        rw [home] at there
        exact absurd (Option.some.inj there).symm here
    · rw [Function.update_of_ne same, tables.home]
      by_cases here : q = p
      · subst here
        simp only [held, Function.update_self]
        refine ⟨fun ⟨u', found⟩ => ?_, fun ⟨u', found⟩ => by simp at found⟩
        simp only [Option.some.injEq, Occupant.mk.injEq] at found
        exact absurd found.1.symm same
      · rw [Function.update_of_ne here]
  · intro q o found
    rw [holder] at found
    by_cases here : q = p
    · subst here
      simp at found
    · rw [Function.update_of_ne here] at found
      exact tables.held q o found
  · intro q
    rw [holder, List.mem_cons]
    by_cases here : q = p
    · subst here
      simpa using (tables.held q _ held).1
    · rw [Function.update_of_ne here, tables.empty]
      simp [here]
  · refine List.nodup_cons.mpr ⟨fun inside => ?_, tables.nodup⟩
    have empty := ((tables.empty p).mp inside).2
    rw [held] at empty
    contradiction

theorem tablesEnter (tables : Tables plan n l (p :: spare)) (away : (l.record v).home = none)
    (known : v.number < n) (home : x.home = some p)
    (record : m.record = Function.update l.record v x)
    (holder : m.holder = Function.update l.holder p (some ⟨v, u⟩)) : Tables plan n m spare := by
  obtain ⟨usable, empty⟩ := (tables.empty p).mp List.mem_cons_self
  obtain ⟨apart, nodup⟩ := List.nodup_cons.mp tables.nodup
  refine ⟨?_, ?_, ?_, nodup⟩
  · intro w q
    rw [record, holder]
    by_cases same : w = v
    · subst same
      rw [Function.update_self, home]
      by_cases here : q = p
      · subst here
        simp
      · rw [Function.update_of_ne here]
        refine ⟨fun equal => absurd (Option.some.inj equal).symm here, fun found => ?_⟩
        have there := (tables.home w q).mpr found
        rw [away] at there
        contradiction
    · rw [Function.update_of_ne same, tables.home]
      by_cases here : q = p
      · subst here
        simp only [empty, Function.update_self]
        refine ⟨fun ⟨u', found⟩ => by simp at found, fun ⟨u', found⟩ => ?_⟩
        simp only [Option.some.injEq, Occupant.mk.injEq] at found
        exact absurd found.1.symm same
      · rw [Function.update_of_ne here]
  · intro q o found
    rw [holder] at found
    by_cases here : q = p
    · subst here
      rw [Function.update_self] at found
      cases found
      exact ⟨usable, known⟩
    · rw [Function.update_of_ne here] at found
      exact tables.held q o found
  · intro q
    rw [holder]
    by_cases here : q = p
    · subst here
      simp [apart]
    · have others := tables.empty q
      rw [List.mem_cons] at others
      rw [Function.update_of_ne here, ← others]
      simp [here]

theorem tablesRefresh (tables : Tables plan n l spare) (held : l.holder p = some o)
    (record : m.record = l.record)
    (holder : m.holder = Function.update l.holder p (some {o with nextUse := u})) :
    Tables plan n m spare := by
  refine ⟨?_, ?_, ?_, tables.nodup⟩
  · intro w q
    rw [record, holder, tables.home]
    by_cases here : q = p
    · subst here
      obtain ⟨w', u'⟩ := o
      simp [held]
    · rw [Function.update_of_ne here]
  · intro q o' found
    rw [holder] at found
    by_cases here : q = p
    · subst here
      rw [Function.update_self] at found
      cases found
      exact tables.held q o held
    · rw [Function.update_of_ne here] at found
      exact tables.held q o' found
  · intro q
    rw [holder, tables.empty]
    by_cases here : q = p
    · subst here
      simp [held]
    · rw [Function.update_of_ne here]

theorem savedUpdate (saved : Saved plan n l) (record : m.record = Function.update l.record v x)
    (owners : m.owners = l.owners) (slot : x.slot = (l.record v).slot) (kept : x.Kept) :
    Saved plan n m := by
  refine ⟨?_, ?_, owners ▸ saved.nodup, owners ▸ saved.known, owners ▸ saved.address,
    owners ▸ saved.room⟩
  · intro w
    rw [record]
    by_cases same : w = v
    · subst same
      rwa [Function.update_self]
    · rw [Function.update_of_ne same]
      exact saved.kept w
  · intro w a
    rw [record, owners, ← saved.slots]
    by_cases same : w = v
    · subst same
      rw [Function.update_self, slot]
    · rw [Function.update_of_ne same]

theorem slotNumber {j : Nat} (room : plan.options.base.toNat + slotSize * j < 4294967296) :
    (plan.slotAt j).toNat = plan.options.base.toNat + slotSize * j :=
  UInt32.toNat_ofNat_of_lt room

theorem slotlessUnowned (saved : Saved plan n l) : (l.record v).slot = none ↔ v ∉ l.owners := by
  constructor
  · intro none inside
    obtain ⟨j, found⟩ := List.getElem?_of_mem inside
    have slot := (saved.slots v _).mpr ⟨j, found, rfl⟩
    rw [none] at slot
    contradiction
  · intro outside
    cases slot : (l.record v).slot with
    | none => rfl
    | some w =>
      obtain ⟨j, found, -⟩ := (saved.slots v w).mp slot
      exact absurd (List.mem_of_getElem? found) outside

theorem savedGrow (saved : Saved plan n l) (record : m.record = Function.update l.record v x)
    (owners : m.owners = l.owners ++ [v]) (slot : x.slot = some (plan.slotAt l.owners.length))
    (slotless : (l.record v).slot = none) (known : v.number < n) (address : plan.address.isSome)
    (room : plan.options.base.toNat + slotSize * (l.owners.length + 1) < 4294967296)
    (kept : x.Kept) : Saved plan n m := by
  have new := slotlessUnowned saved |>.mp slotless
  refine ⟨?_, ?_, ?_, ?_, fun _ => address, fun _ => ?_⟩
  · intro w
    rw [record]
    by_cases same : w = v
    · subst same
      rwa [Function.update_self]
    · rw [Function.update_of_ne same]
      exact saved.kept w
  · intro w a
    rw [record, owners]
    by_cases same : w = v
    · subst same
      rw [Function.update_self, slot]
      constructor
      · intro equal
        exact ⟨l.owners.length, by simp, (Option.some.inj equal).symm⟩
      · rintro ⟨j, found, rfl⟩
        rcases Nat.lt_or_ge j l.owners.length with less | more
        · rw [List.getElem?_append_left less] at found
          exact absurd (List.mem_of_getElem? found) new
        · obtain ⟨bound, -⟩ := List.getElem?_eq_some_iff.mp found
          rw [List.length_append, List.length_singleton] at bound
          rw [show j = l.owners.length by omega]
    · rw [Function.update_of_ne same, saved.slots]
      refine exists_congr fun j => and_congr_left fun _ => ?_
      rcases Nat.lt_or_ge j l.owners.length with less | more
      · rw [List.getElem?_append_left less]
      · rw [List.getElem?_append_right more, List.getElem?_eq_none more]
        cases j - l.owners.length with
        | zero => simp [Ne.symm same]
        | succ i => simp
  · rw [owners]
    exact List.nodup_append.mpr ⟨saved.nodup, List.nodup_singleton v, fun w inside w' last => by
      rw [List.mem_singleton.mp last]
      exact fun same => new (same ▸ inside)⟩
  · rw [owners]
    intro w inside
    rcases List.mem_append.mp inside with old | last
    · exact saved.known w old
    · rw [List.mem_singleton.mp last]
      exact known
  · rw [owners, List.length_append, List.length_singleton]
    exact room

structure Sound (plan : Plan) (n : Nat) (l : Ledger) (spare : List PhysicalReg) : Prop where
  tables : Tables plan n l spare
  saved : Saved plan n l

theorem evictsSound (sound : Sound plan n l spare) (held : l.holder p = some o)
    (evicts : Evicts plan site o.value p l m) : Sound plan n m (p :: spare) := by
  obtain ⟨v, u⟩ := o
  have known := (sound.tables.held p _ held).2
  have kept := sound.saved.kept v
  cases evicts with
  -- A constant needs no slot; anything else that goes unstored has been clean before.
  | kept cheap =>
    refine ⟨tablesLeave sound.tables held rfl rfl rfl, savedUpdate sound.saved rfl rfl rfl ?_⟩
    refine ⟨fun _ varies => ?_, fun slot => ⟨rfl, (kept.slot slot).2⟩⟩
    refine kept.clean ?_ varies
    by_contra unclean
    exact cheap (costDirty.mpr ⟨varies, unclean⟩)
  | stored costly address room =>
    obtain ⟨varies, unclean⟩ := costDirty.mp costly
    refine ⟨tablesLeave sound.tables held rfl rfl rfl,
      savedGrow sound.saved rfl rfl rfl (dirtySlotless kept unclean) known (by rw [address]; rfl)
        room ?_⟩
    exact ⟨fun _ _ => rfl, fun _ => ⟨rfl, varies⟩⟩

theorem takesSound (sound : Sound plan n l l.free) (takes : Takes plan site l p m) :
    Sound plan n m (p :: m.free) := by
  cases takes with
  | free first =>
    refine ⟨⟨sound.tables.home, sound.tables.held, ?_, ?_⟩, {sound.saved with}⟩
    · exact first ▸ sound.tables.empty
    · exact first ▸ sound.tables.nodup
  | evicted full held unpinned evicts =>
    have same : m.free = l.free := by cases evicts <;> rfl
    rw [same]
    exact evictsSound sound held evicts

theorem evictsRecord (evicts : Evicts plan site v p l m) (w : VirtualReg) :
    m.record w = l.record w ∨ w = v ∧ (m.record w).home = none ∧ (m.record w).status = .clean ∧
      (m.record w).constant = (l.record w).constant := by
  by_cases same : w = v
  · subst same
    refine .inr ⟨rfl, ?_⟩
    cases evicts <;> simp
  · left
    cases evicts <;> simp [Function.update_of_ne same]

theorem takesRecord (takes : Takes plan site l p m) (w : VirtualReg) :
    m.record w = l.record w ∨ (∃ u, l.holder p = some ⟨w, u⟩) ∧ (m.record w).home = none ∧
      (m.record w).status = .clean ∧ (m.record w).constant = (l.record w).constant := by
  cases takes with
  | free => exact .inl rfl
  | @evicted o _ full held unpinned evicts =>
    rcases evictsRecord evicts w with same | ⟨rfl, changed⟩
    · exact .inl same
    · exact .inr ⟨⟨o.nextUse, held⟩, changed⟩

theorem takesHolder (takes : Takes plan site l p m) {q : PhysicalReg} (other : q ≠ p) :
    m.holder q = l.holder q := by
  cases takes with
  | free => rfl
  | evicted full held unpinned evicts => cases evicts <;> exact Function.update_of_ne other _ _

theorem takesRest (takes : Takes plan site l p m) : m.rest = l.rest ∧ m.pinned = l.pinned := by
  cases takes with
  | free => exact ⟨rfl, rfl⟩
  | evicted full held unpinned evicts => cases evicts <;> exact ⟨rfl, rfl⟩

theorem takesUnpinned (sound : Sound plan n l l.free)
    (pins : l.Pins) (takes : Takes plan site l p m) :
    l.pinned.contains p = false := by
  cases takes with
  | free first =>
    rw [Bool.eq_false_iff]
    intro pinned
    exact pins p pinned ((sound.tables.empty p).mp (first ▸ List.mem_cons_self)).2
  | evicted full held unpinned evicts => exact unpinned

theorem takesAway (takes : Takes plan site l p m) (away : (l.record v).home = none) :
    (m.record v).home = none := by
  rcases takesRecord takes v with same | ⟨-, home, -⟩
  · rwa [same]
  · exact home

theorem bringsRecord (brings : Brings plan site v p u l m) {w : VirtualReg} (other : w ≠ v) :
    m.record w = l.record w := by
  cases brings <;> exact Function.update_of_ne other _ _

theorem bringsHome (brings : Brings plan site v p u l m) : (m.record v).home = some p := by
  cases brings <;> simp

theorem bringsHolder (brings : Brings plan site v p u l m) :
    m.holder = Function.update l.holder p (some ⟨v, u⟩) := by
  cases brings <;> rfl

theorem bringsRest (brings : Brings plan site v p u l m) :
    m.rest = l.rest ∧ m.pinned = l.pinned ∧ m.free = l.free := by
  cases brings <;> exact ⟨rfl, rfl, rfl⟩

theorem bringsSound (sound : Sound plan n l (p :: spare)) (away : (l.record v).home = none)
    (known : v.number < n) (brings : Brings plan site v p u l m) : Sound plan n m spare := by
  have kept := sound.saved.kept v
  cases brings with
  | remade constant =>
    refine ⟨tablesEnter sound.tables away known rfl rfl rfl, savedUpdate sound.saved rfl rfl rfl ?_⟩
    refine ⟨fun clean => by simp at clean, fun slot => ?_⟩
    have varies := (kept.slot slot).2
    rw [constant] at varies
    contradiction
  | adopted varies new =>
    refine ⟨tablesEnter sound.tables away known rfl rfl rfl, savedUpdate sound.saved rfl rfl rfl ?_⟩
    refine ⟨fun clean => by simp at clean, fun slot => ?_⟩
    have clean := (kept.slot slot).1
    rw [new] at clean
    contradiction
  | reloaded varies saved slot address =>
    refine ⟨tablesEnter sound.tables away known rfl rfl rfl, savedUpdate sound.saved rfl rfl rfl ?_⟩
    exact ⟨fun _ => kept.clean saved, fun slot => ⟨rfl, (kept.slot slot).2⟩⟩

theorem fetchesSound (sound : Sound plan n l l.free) (known : v.number < n)
    (fetches : Fetches plan site v u l p m) :
    Sound plan n m m.free ∧ ∃ u, m.holder p = some ⟨v, u⟩ := by
  cases fetches with
  | resident home => exact ⟨sound, (sound.tables.home v p).mp home⟩
  | @brought k _ away takes brings =>
    rw [(bringsRest brings).2.2]
    exact ⟨bringsSound (takesSound sound takes) (takesAway takes away) known brings, u, by
      rw [bringsHolder brings, Function.update_self]⟩

theorem resolveSound (sound : Sound plan n l spare) (held : l.holder p = some o) (slot : Slot)
    (u : NextUse) : Sound plan n (l.resolve slot p u) spare := by
  refine ⟨tablesRefresh (u := u) sound.tables held rfl ?_, {sound.saved with}⟩
  simp [Ledger.resolve, held]

theorem unpinSound (sound : Sound plan n l spare) : Sound plan n l.unpin spare :=
  ⟨{sound.tables with}, {sound.saved with}⟩

theorem advanceSound (sound : Sound plan n l spare) : Sound plan n l.advance spare :=
  ⟨{sound.tables with}, {sound.saved with}⟩

theorem releaseSound (sound : Sound plan n l l.free) (v : VirtualReg) :
    Sound plan n (l.release v) (l.release v).free := by
  unfold Ledger.release
  cases home : (l.record v).home with
  | none => exact sound
  | some p =>
    obtain ⟨u, held⟩ := (sound.tables.home v p).mp home
    have kept := sound.saved.kept v
    exact ⟨tablesLeave sound.tables held rfl rfl rfl, savedUpdate sound.saved rfl rfl rfl
      ⟨kept.clean, kept.slot⟩⟩

theorem defineSound (sound : Sound plan n l (p :: spare)) (new : l.record v = {})
    (known : v.number < n) (i : Instr) (slot : Slot) :
    Sound plan n (l.define i slot v p) spare := by
  refine ⟨tablesEnter sound.tables (by rw [new]) known rfl rfl rfl,
    savedUpdate sound.saved rfl rfl rfl ?_⟩
  rw [new]
  exact ⟨fun clean => by simp at clean, fun slot => by simp at slot⟩

end
end Straightline.Allocation
