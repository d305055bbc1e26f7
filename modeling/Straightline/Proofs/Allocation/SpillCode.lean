import Straightline.Proofs.Allocation.Accepted

/-! The code that allocation inserts. It comes in groups: a store or a load of a spill slot, each with
the address put into the address register first, or a constant put into a register again. The groups
stand in front of the instruction that they were inserted for. Slots are stored to once each and in
the order of their addresses, a load finds what was stored, and what a load or a constant brings into
a register is what the instruction reads there. -/
namespace Straightline

def Instr.ReadsFrom (i : Instr) (v : VirtualReg) (p : PhysicalReg) : Prop :=
  ∃ slot ∈ i.opcode.reads, (i.operand slot).virtual = some v ∧ (i.operand slot).physical = some p

namespace Allocation

inductive Group where
  | store (slot : Word) (p : PhysicalReg)
  | load (slot : Word) (p : PhysicalReg)
  | remake (constant : Word) (p : PhysicalReg)
  deriving DecidableEq, Repr

namespace Group

def code (line : Nat) (address : Option PhysicalReg) : Group → List Instr
  | store slot p =>
    [{line, opcode := .loadI, constant := slot, third := {physical := address}, inserted := true},
      {line, opcode := .store, first := {physical := some p}, third := {physical := address},
        inserted := true}]
  | load slot p =>
    [{line, opcode := .loadI, constant := slot, third := {physical := address}, inserted := true},
      {line, opcode := .load, first := {physical := address}, third := {physical := some p},
        inserted := true}]
  | remake constant p =>
    [{line, opcode := .loadI, constant, third := {physical := some p}, inserted := true}]

def stored : Group → Option Word
  | store slot _ => some slot
  | load _ _ | remake _ _ => none

/-- What the group is there for, when `i` is the instruction behind it: `owns` tells whose slot a word
is the address of, and `makes` which values are constants. -/
def Serves (usable : Nat) (address : Option PhysicalReg) (owns makes : VirtualReg → Word → Prop)
    (i : Instr) : Group → Prop
  | store _ p => p.number < usable ∧ address.isSome
  | load slot p => p.number < usable ∧ address.isSome ∧ ∃ v, owns v slot ∧ i.ReadsFrom v p
  | remake constant p => p.number < usable ∧ ∃ v, makes v constant ∧ i.ReadsFrom v p

theorem servesMono {usable : Nat} {address : Option PhysicalReg}
    {owns owns' makes makes' : VirtualReg → Word → Prop} {i j : Instr} {g : Group}
    (more : ∀ v w, owns v w → owns' v w) (more' : ∀ v c, makes v c → makes' v c)
    (reads : ∀ v p, i.ReadsFrom v p → j.ReadsFrom v p) (serves : g.Serves usable address owns makes i) :
    g.Serves usable address owns' makes' j := by
  cases g with
  | store => exact serves
  | load slot p =>
    obtain ⟨below, address, v, owned, read⟩ := serves
    exact ⟨below, address, v, more v slot owned, reads v p read⟩
  | remake constant p =>
    obtain ⟨below, v, made, read⟩ := serves
    exact ⟨below, v, more' v constant made, reads v p read⟩

theorem codeInserted (line : Nat) (address : Option PhysicalReg) (g : Group) :
    ∀ i ∈ g.code line address, i.inserted = true := by
  cases g <;> simp [code]

end Group

structure Stretch where
  groups : List Group
  instr : Instr
  deriving DecidableEq, Repr

def Stretch.code (address : Option PhysicalReg) (s : Stretch) : List Instr :=
  s.groups.flatMap (Group.code s.instr.line address) ++ [s.instr]

/-- The groups, in order, store to the first `count` slots, each once and in the order of the slots, and
load from a slot only after it was stored to. -/
structure Ordered (plan : Plan) (count : Nat) (groups : List Group) : Prop where
  stores : groups.filterMap Group.stored = (List.range count).map plan.slotAt
  loads : ∀ n slot p, groups[n]? = some (.load slot p) →
    slot ∈ (groups.take n).filterMap Group.stored

structure Puts (plan : Plan) (line : Nat) (l m : Ledger) (groups : List Group) : Prop where
  done : m.done.map Prod.snd = l.done.map Prod.snd ++ groups.flatMap (Group.code line plan.address)
  ordered : ∀ earlier, Ordered plan l.owners.length earlier →
    Ordered plan m.owners.length (earlier ++ groups)
  slots : ∀ v w, (l.record v).slot = some w → (m.record v).slot = some w
  constants : ∀ v, (m.record v).constant = (l.record v).constant

def Ledger.Served (plan : Plan) (l : Ledger) (i : Instr) (groups : List Group) : Prop :=
  ∀ g ∈ groups, g.Serves plan.usable plan.address (fun v w => (l.record v).slot = some w)
    (fun v c => (l.record v).constant = some c) i

section
variable {plan : Plan} {n line : Nat} {site : Site} {l m k : Ledger} {i j : Instr} {h : Handle}
  {slots : List Slot} {v : VirtualReg} {p : PhysicalReg} {u : NextUse} {w c : Word}
  {groups more : List Group} {rest : List (Handle × Instr)}

theorem orderedPut {count count' : Nat} {g : Group} (ordered : Ordered plan count groups)
    (stores : (groups ++ [g]).filterMap Group.stored = (List.range count').map plan.slotAt)
    (loads : ∀ slot p, g = .load slot p → slot ∈ groups.filterMap Group.stored) :
    Ordered plan count' (groups ++ [g]) := by
  refine ⟨stores, fun n slot p found => ?_⟩
  rcases Nat.lt_or_ge n groups.length with early | late
  · rw [List.getElem?_append_left early] at found
    rw [List.take_append_of_le_length (Nat.le_of_lt early)]
    exact ordered.loads n slot p found
  · rw [List.getElem?_append_right late] at found
    have last : g = .load slot p := (List.mem_singleton.mp (List.mem_of_getElem? found)).symm
    rw [List.take_append, List.take_of_length_le late, List.filterMap_append]
    exact List.mem_append_left _ (loads slot p last)

theorem putsNothing (done : m.done = l.done) (owners : m.owners = l.owners)
    (slots : ∀ v, (m.record v).slot = (l.record v).slot)
    (constants : ∀ v, (m.record v).constant = (l.record v).constant) : Puts plan line l m [] where
  done := by simp [done]
  ordered earlier ordered := by
    rw [List.append_nil, owners]
    exact ordered
  slots v w slot := by rw [slots, slot]
  constants := constants

theorem putsTrans (first : Puts plan line l m groups) (second : Puts plan line m k more) :
    Puts plan line l k (groups ++ more) where
  done := by rw [second.done, first.done, List.flatMap_append, List.append_assoc]
  ordered earlier ordered := by
    rw [← List.append_assoc]
    exact second.ordered _ (first.ordered earlier ordered)
  slots v w slot := second.slots v w (first.slots v w slot)
  constants v := (second.constants v).trans (first.constants v)

theorem servedPuts (puts : Puts plan line l m more) (served : l.Served plan i groups) :
    m.Served plan i groups := by
  intro g inside
  exact Group.servesMono puts.slots (fun v c made => (puts.constants v).trans made)
    (fun v p read => read) (served g inside)

theorem takesPuts (sound : Sound plan n l l.free) (takes : Takes plan site l p m) :
    ∃ groups, Puts plan site.line l m groups ∧ ∀ i, m.Served plan i groups := by
  have below := (((takesSound sound takes).tables.empty p).mp List.mem_cons_self).1
  cases takes with
  | free => exact ⟨[], putsNothing rfl rfl (fun _ => rfl) fun _ => rfl, by simp [Ledger.Served]⟩
  | @evicted o _ full held unpinned evicts =>
    have constants : ∀ v, (m.record v).constant = (l.record v).constant := by
      intro v
      rcases evictsRecord evicts v with same | ⟨-, -, -, same⟩
      · rw [same]
      · exact same
    cases evicts with
    | kept cheap =>
      refine ⟨[], putsNothing rfl rfl (fun v => ?_) constants, by simp [Ledger.Served]⟩
      by_cases same : v = o.value
      · subst same
        simp
      · simp [Function.update_of_ne same]
    | @stored a h k costly address room =>
      refine ⟨[.store (plan.slotAt l.owners.length) p], ⟨?_, fun earlier ordered => ?_, fun v w slot => ?_,
        constants⟩, fun i g inside => ?_⟩
      · simp [Group.code, address, Instr.insertedLoadI, Instr.insertedStore]
      · refine orderedPut ordered ?_ (by simp)
        simp [List.filterMap_append, ordered.stores, Group.stored, List.range_succ]
      · -- What is stored now was dirty, so it was in no slot before.
        have other : v ≠ o.value := by
          rintro rfl
          rw [dirtySlotless (sound.saved.kept _) (costDirty.mp costly).2] at slot
          contradiction
        simp only [Function.update_of_ne other]
        exact slot
      · obtain rfl := List.mem_singleton.mp inside
        exact ⟨below, by simp [address]⟩

theorem bringsPuts (saved : Saved plan n l) (below : p.number < plan.usable)
    (brings : Brings plan site v p u l m) :
    ∃ groups, Puts plan site.line l m groups ∧ ∀ i, i.ReadsFrom v p → m.Served plan i groups := by
  have slots : ∀ w, (m.record w).slot = (l.record w).slot := by
    intro w
    by_cases same : w = v
    · subst same
      cases brings <;> simp
    · rw [bringsRecord brings same]
  have constants : ∀ w, (m.record w).constant = (l.record w).constant := by
    intro w
    by_cases same : w = v
    · subst same
      cases brings <;> simp
    · rw [bringsRecord brings same]
  cases brings with
  | adopted => exact ⟨[], putsNothing rfl rfl slots constants, by simp [Ledger.Served]⟩
  | @remade c h constant =>
    refine ⟨[.remake c p], ⟨by simp [Group.code, Instr.insertedLoadI], fun earlier ordered => ?_,
      fun w x slot => ?_, constants⟩, fun i read g inside => ?_⟩
    · exact orderedPut ordered (by simp [List.filterMap_append, ordered.stores, Group.stored]) (by simp)
    · rw [slots, slot]
    · obtain rfl := List.mem_singleton.mp inside
      exact ⟨below, v, (constants v).trans constant, read⟩
  | @reloaded a w h k varies clean slot address =>
    refine ⟨[.load w p], ⟨by simp [Group.code, address, Instr.insertedLoadI, Instr.insertedLoad],
      fun earlier ordered => ?_, fun w x slot => ?_, constants⟩, fun i read g inside => ?_⟩
    · refine orderedPut ordered (by simp [List.filterMap_append, ordered.stores, Group.stored]) ?_
      rintro slot' q same
      obtain ⟨rfl, rfl⟩ := Group.load.inj same
      obtain ⟨j, owner, rfl⟩ := (saved.slots v w).mp slot
      rw [ordered.stores]
      exact List.mem_map_of_mem (List.mem_range.mpr (List.getElem?_eq_some_iff.mp owner).1)
    · rw [slots, slot]
    · obtain rfl := List.mem_singleton.mp inside
      exact ⟨below, by simp [address], v, (slots v).trans slot, read⟩

theorem servedAppend (first : l.Served plan i groups) (second : l.Served plan i more) :
    l.Served plan i (groups ++ more) :=
  fun g inside => (List.mem_append.mp inside).elim (first g) (second g)

theorem fetchesPuts (sound : Sound plan n l l.free) (fetches : Fetches plan site v u l p m) :
    ∃ groups, Puts plan site.line l m groups ∧ ∀ i, i.ReadsFrom v p → m.Served plan i groups := by
  cases fetches with
  | resident =>
    exact ⟨[], putsNothing rfl rfl (fun _ => rfl) fun _ => rfl, by simp [Ledger.Served]⟩
  | @brought k _ away takes brings =>
    have taken := takesSound sound takes
    obtain ⟨groups, puts, served⟩ := takesPuts sound takes
    obtain ⟨more, puts', served'⟩ := bringsPuts taken.saved
      ((taken.tables.empty p).mp List.mem_cons_self).1 brings
    refine ⟨groups ++ more, putsTrans puts puts', fun i read => ?_⟩
    exact servedAppend (servedPuts puts' (served i)) (served' i read)

theorem resolvesPuts (known : ∀ slot ∈ slots, ∀ v, (i.operand slot).virtual = some v → v.number < n)
    (reads : ∀ slot ∈ slots, slot ∈ i.opcode.reads) (distinct : slots.Nodup)
    (resolves : Resolves plan site i slots l m) (reading : Reading plan n l) (houses : i.Houses j)
    (head : l.rest = (site.handle, j) :: rest) :
    ∃ groups j', Puts plan site.line l m groups ∧ i.Houses j' ∧
      m.rest = (site.handle, j') :: rest ∧ (∀ slot ∉ slots, j'.operand slot = j.operand slot) ∧
      m.Served plan j' groups := by
  induction resolves generalizing j with
  | nil l =>
    exact ⟨[], j, putsNothing rfl rfl (fun _ => rfl) fun _ => rfl, houses, head, fun _ _ => rfl,
      by simp [Ledger.Served]⟩
  | @cons slot slots v p l m k virtual fetches later ih =>
    obtain ⟨apart, distinct⟩ := List.nodup_cons.mp distinct
    obtain ⟨groups, puts, served⟩ := fetchesPuts reading.sound fetches
    have known' := known slot List.mem_cons_self v virtual
    obtain ⟨more, j', puts', houses', rest', same, served'⟩ :=
      ih (fun slot inside => known slot (List.mem_cons_of_mem _ inside))
        (fun slot inside => reads slot (List.mem_cons_of_mem _ inside)) distinct
        (fetchesReading reading known' fetches slot) (Instr.housesSet houses slot p)
        (resolveRest ((fetchesRest fetches).1.trans head))
    have read : j'.ReadsFrom v p := by
      refine ⟨slot, houses'.opcode ▸ reads slot List.mem_cons_self, ?_, ?_⟩
      · rw [houses'.virtual, virtual]
      · rw [same slot apart, Instr.setPhysical, Instr.operandSetSame]
    have resolved : Puts plan site.line l (m.resolve slot p (i.operand slot).nextUse) groups :=
      {puts with}
    have served'' : (m.resolve slot p (i.operand slot).nextUse).Served plan j' groups := served j' read
    refine ⟨groups ++ more, j', putsTrans resolved puts', houses', rest', fun t outside => ?_,
      servedAppend (servedPuts puts' served'') served'⟩
    obtain ⟨other, outside⟩ := List.ne_and_not_mem_of_not_mem_cons outside
    rw [same t outside, Instr.setPhysical, Instr.operandSetOther _ _ other]

theorem releaseKept (l : Ledger) (v w : VirtualReg) : (l.release v).owners = l.owners ∧
    ((l.release v).record w).slot = (l.record w).slot ∧
    ((l.release v).record w).constant = (l.record w).constant := by
  unfold Ledger.release
  split
  · refine ⟨rfl, ?_⟩
    by_cases same : w = v
    · subst same
      simp
    · simp [Function.update_of_ne same]
  · exact ⟨rfl, rfl, rfl⟩

theorem releasePuts (l : Ledger) (v : VirtualReg) : Puts plan line l (l.release v) [] :=
  putsNothing (releaseRest l v).2 (releaseKept l v v).1 (fun w => (releaseKept l v w).2.1)
    fun w => (releaseKept l v w).2.2

theorem releasesPuts (l : Ledger) (vs : List VirtualReg) :
    Puts plan line l (l.releases vs).unpin [] := by
  have released : Puts plan line l (l.releases vs) [] :=
    releasesInduct (fun k => Puts plan line l k [])
      (fun k v puts => putsTrans puts (releasePuts k v)) vs (putsNothing rfl rfl (fun _ => rfl) fun _ => rfl)
  exact {released with}

theorem definedKept (l : Ledger) (i : Instr) (slot : Slot) (v w : VirtualReg) (p : PhysicalReg)
    (u : NextUse) :
    ((l.define i slot v p).settle v u).owners = l.owners ∧
      (((l.define i slot v p).settle v u).record w).slot = (l.record w).slot ∧
      (((l.define i slot v p).settle v u).record w).constant =
        if w = v then if i.opcode = .loadI then some i.constant else none
        else (l.record w).constant := by
  have defined : (l.define i slot v p).owners = l.owners ∧
      ((l.define i slot v p).record w).slot = (l.record w).slot ∧
      ((l.define i slot v p).record w).constant =
        if w = v then if i.opcode = .loadI then some i.constant else none
        else (l.record w).constant := by
    refine ⟨rfl, ?_⟩
    by_cases same : w = v
    · subst same
      simp [Ledger.define]
    · simp [Ledger.define, same]
  unfold Ledger.settle
  split
  · obtain ⟨owners, slots, constants⟩ := releaseKept (l.define i slot v p) v w
    exact ⟨owners.trans defined.1, slots.trans defined.2.1, constants.trans defined.2.2⟩
  · exact defined

theorem definesPuts (sound : Sound plan n l l.free) (houses : i.Houses j)
    (head : l.rest = (site.handle, j) :: rest) (defines : Defines plan site i l k) :
    ∃ groups m j', Puts plan site.line l m groups ∧ (∀ x, m.Served plan x groups) ∧
      i.Houses j' ∧ k.rest = (site.handle, j') :: rest ∧
      (∀ v p, j.ReadsFrom v p → j'.ReadsFrom v p) ∧ k.done = m.done ∧ k.owners = m.owners ∧
      ∀ v, (k.record v).slot = (m.record v).slot ∧ (k.record v).constant =
        if i.writtenReg .virtual = some (some v) then if i.opcode = .loadI then some i.constant else none
        else (m.record v).constant := by
  cases defines with
  | nothing silent =>
    refine ⟨[], l, j, putsNothing rfl rfl (fun _ => rfl) fun _ => rfl, by simp [Ledger.Served], houses,
      head, fun _ _ read => read, rfl, rfl, fun v => ⟨rfl, ?_⟩⟩
    simp [Instr.writtenRegNone silent]
  | @value slot v p m writes virtual takes =>
    obtain ⟨groups, puts, served⟩ := takesPuts sound takes
    have head' := (takesRest takes).1.trans head
    refine ⟨groups, m, j.setPhysical slot p, puts, served, Instr.housesSet houses slot p, ?_, ?_,
      (settleRest _ v _).2, (definedKept m i slot v v p _).1, fun w => ?_⟩
    · rw [(settleRest _ v _).1]
      simp [Ledger.define, Ledger.assign, head']
    · rintro w q ⟨read, inside, virtual', physical⟩
      have opcode := (Instr.housesSet houses slot p).opcode
      rw [houses.opcode] at inside
      have other : read ≠ slot := fun same => Opcode.writtenUnread writes (same ▸ inside)
      refine ⟨read, opcode ▸ inside, ?_⟩
      rw [Instr.setPhysical, Instr.operandSetOther _ _ other]
      exact ⟨virtual', physical⟩
    · obtain ⟨-, slots, constants⟩ := definedKept m i slot v w p (i.operand slot).nextUse
      refine ⟨slots, constants.trans ?_⟩
      rw [Instr.writtenRegSome writes, Operand.reg, virtual]
      simp only [Option.some.injEq, eq_comm]

end

structure Laid (plan : Plan) (l : Ledger) (stretches : List Stretch) : Prop where
  code : l.done.map Prod.snd = stretches.flatMap (Stretch.code plan.address)
  given : ∀ s ∈ stretches, s.instr.inserted = false
  ordered : Ordered plan l.owners.length (stretches.flatMap Stretch.groups)
  served : ∀ s ∈ stretches, l.Served plan s.instr s.groups
  constants : ∀ v c, (l.record v).constant = some c ↔ ∃ s ∈ stretches, s.instr.opcode = .loadI ∧
    s.instr.constant = c ∧ s.instr.writtenReg .virtual = some (some v)

section
variable {plan : Plan} {n position : Nat} {l m k : Ledger} {i : Instr} {h : Handle}
  {rest : List (Handle × Instr)} {stretches : List Stretch} {es : List (Handle × Instr)}
  {steps : List Renaming.Step}

theorem crossesLaid (wants : Wants n i l) (sound : Sound plan n l l.free)
    (head : l.rest = (h, i) :: rest) (given : i.inserted = false) (crosses : Crosses plan h i l k)
    (laid : Laid plan l stretches) :
    ∃ s, i.Houses s.instr ∧ Laid plan k.advance (stretches ++ [s]) := by
  obtain @⟨m, _, reads, writes⟩ := crosses
  obtain ⟨groups, j, puts, houses, behind, -, served⟩ := resolvesPuts (wantsKnown wants)
    (fun _ inside => inside) (Opcode.readsDistinct i.opcode) reads (startReading sound)
    (Instr.housesRefl i) head
  have released : Puts plan i.line m (m.releases i.lastReads).unpin [] := releasesPuts m i.lastReads
  obtain ⟨more, m', j', puts', served', houses', behind', reads', done, owners, record⟩ :=
    definesPuts (resolvedSound wants sound reads) houses ((releasesRest m i.lastReads).1.trans behind)
      writes
  have all : Puts plan i.line l m' (groups ++ more) := by
    have both := putsTrans (putsTrans puts released) puts'
    rw [List.append_nil] at both
    exact {both with}
  have new : ∀ v, i.writtenReg .virtual = some (some v) → (l.record v).constant = none := by
    intro v written
    obtain ⟨slot, writes, virtual⟩ := Instr.memWrittenReg.mp written
    obtain ⟨w, virtual', -, fresh, -⟩ := wants.writes slot writes
    obtain rfl := Option.some.inj (virtual.symm.trans virtual')
    rw [fresh]
  have slots : ∀ v w, (m'.record v).slot = some w → (k.record v).slot = some w :=
    fun v w slot => (record v).1.trans slot
  have constants : ∀ v c, (m'.record v).constant = some c → (k.record v).constant = some c := by
    intro v c constant
    rw [(record v).2, if_neg, constant]
    intro written
    rw [all.constants, new v written] at constant
    contradiction
  have late : ∀ {x y : Instr} {groups : List Group}, (∀ v p, x.ReadsFrom v p → y.ReadsFrom v p) →
      m'.Served plan x groups → k.Served plan y groups :=
    fun more served g inside => Group.servesMono slots constants more (served g inside)
  refine ⟨⟨groups ++ more, j'⟩, houses', ⟨?_, ?_, ?_, ?_, fun v c => ?_⟩⟩
  · simp only [Ledger.advance, behind', done, List.map_append, all.done, laid.code]
    simp [Stretch.code, houses'.line]
  · intro s inside
    rcases List.mem_append.mp inside with old | last
    · exact laid.given s old
    · rw [List.mem_singleton.mp last]
      exact houses'.inserted.trans given
  · rw [List.flatMap_append, List.flatMap_singleton, Ledger.advance, owners]
    exact all.ordered _ laid.ordered
  · intro s inside
    rcases List.mem_append.mp inside with old | last
    · exact late (fun _ _ read => read) (servedPuts all (laid.served s old))
    · rw [List.mem_singleton.mp last]
      exact servedAppend (late reads' (servedPuts puts' (servedPuts released served)))
        (late (fun _ _ read => read) (served' j'))
  · rw [show (k.advance.record v).constant = (k.record v).constant from rfl, (record v).2]
    simp only [List.mem_append, List.mem_singleton, or_and_right, exists_or, exists_eq_left,
      ← laid.constants v c, houses'.opcode, houses'.constant, Instr.housesWritten houses']
    by_cases written : i.writtenReg .virtual = some (some v)
    · rw [if_pos written, new v written]
      by_cases opcode : i.opcode = .loadI <;> simp [opcode, written]
    · rw [if_neg written, all.constants]
      simp [written]

theorem walksLaid (renames : Renaming.Renames position es steps)
    (given : ∀ e ∈ es, e.2.inserted = false) (stage : Stage plan n steps l)
    (numbered : (Renaming.envAbove steps).minted ≤ n) (walks : Walks plan steps l m)
    (laid : Laid plan l stretches) : ∃ stretches, Laid plan m stretches := by
  induction walks generalizing position es stretches with
  | nil => exact ⟨stretches, laid⟩
  | @cons s steps l k m crosses rest ih =>
    have next := crossesStage renames stage numbered crosses
    have wants := stageWants renames stage numbered
    cases renames with
    | @cons _ h i j env es _ inRange pass later =>
      obtain ⟨s, -, laid'⟩ := crossesLaid wants stage.sound stage.rest
        (pass.relabels.inserted.trans (given (h, i) List.mem_cons_self)) crosses laid
      exact ih later (fun e inside => given e (List.mem_cons_of_mem _ inside)) next
        (Nat.le_trans pass.minted.1 numbered) laid'

theorem initialLaid (plan : Plan) (steps : List Renaming.Step) :
    Laid plan (Ledger.initial plan steps) [] := by
  refine ⟨rfl, by simp, ⟨rfl, by simp⟩, by simp, ?_⟩
  simp [Ledger.initial]

theorem stretchesGiven (address : Option PhysicalReg)
    (given : ∀ s ∈ stretches, s.instr.inserted = false) :
    (stretches.flatMap (Stretch.code address)).filter (fun i => !i.inserted) =
      stretches.map Stretch.instr := by
  induction stretches with
  | nil => rfl
  | cons s stretches ih =>
    have none : (s.groups.flatMap (Group.code s.instr.line address)).filter
        (fun i => !i.inserted) = [] := by
      refine List.filter_eq_nil_iff.mpr fun i inside => ?_
      obtain ⟨g, -, listed⟩ := List.mem_flatMap.mp inside
      simp [Group.codeInserted _ _ g i listed]
    rw [List.flatMap_cons, List.filter_append, Stretch.code, List.filter_append, none,
      ih fun s inside => given s (List.mem_cons_of_mem _ inside)]
    simp [given s List.mem_cons_self]

end

structure SpillCode (d : Block) (base : Word) (output : Output) (stretches : List Stretch)
    (owners : List VirtualReg) : Prop where
  code : d.values = stretches.flatMap (Stretch.code output.address)
  given : d.given = stretches.map Stretch.instr
  stores : ((stretches.flatMap Stretch.groups).filterMap Group.stored).map UInt32.toNat =
    (List.range output.slots).map fun j => base.toNat + 4 * j
  loads : ∀ n slot p, (stretches.flatMap Stretch.groups)[n]? = some (.load slot p) →
    slot ∈ ((stretches.flatMap Stretch.groups).take n).filterMap Group.stored
  owned : owners.Nodup ∧ owners.length = output.slots
  varies : ∀ v ∈ owners, ∀ i ∈ d.given, i.opcode = .loadI → i.writtenReg .virtual ≠ some (some v)
  serves : ∀ s ∈ stretches, ∀ g ∈ s.groups, g.Serves output.usable output.address
    (fun v slot => ∃ j, owners[j]? = some v ∧ slot.toNat = base.toNat + 4 * j)
    (fun v c => ∃ i ∈ d.given, i.opcode = .loadI ∧ i.constant = c ∧
      i.writtenReg .virtual = some (some v)) s.instr

theorem laidSpillCode {plan : Plan} {n : Nat} {m : Ledger} {d : Block} {stretches : List Stretch}
    (spelled : d.Spells m.done) (saved : Saved plan n m) (laid : Laid plan m stretches) :
    SpillCode d plan.options.base ⟨plan.usable, plan.address, m.owners.length, m.stats⟩ stretches
      m.owners := by
  have values : d.values = stretches.flatMap (Stretch.code plan.address) := by
    rw [Chain.values, Chain.spellsEntries spelled, laid.code]
  have given : d.given = stretches.map Stretch.instr := by
    rw [Block.given, values, stretchesGiven plan.address laid.given]
  have number : ∀ j, j < m.owners.length →
      (plan.slotAt j).toNat = plan.options.base.toNat + 4 * j := by
    intro j owned
    have room := saved.room (List.ne_nil_of_length_pos (Nat.zero_lt_of_lt owned))
    refine slotNumber (Nat.lt_of_le_of_lt (Nat.add_le_add_left ?_ _) room)
    exact Nat.mul_le_mul_left _ (Nat.le_of_lt owned)
  refine ⟨values, given, ?_, laid.ordered.loads, ⟨saved.nodup, rfl⟩, ?_, ?_⟩
  · rw [laid.ordered.stores, List.map_map]
    exact List.map_congr_left fun j inside => number j (List.mem_range.mp inside)
  · -- A value in a slot is no constant, and the constants are what the given instructions make.
    intro v owner i listed opcode written
    obtain ⟨j, found⟩ := List.getElem?_of_mem owner
    have slot := (saved.slots v _).mpr ⟨j, found, rfl⟩
    have varies := ((saved.kept v).slot (by simp [slot])).2
    rw [given] at listed
    obtain ⟨s, inside, rfl⟩ := List.mem_map.mp listed
    have constant := (laid.constants v _).mpr ⟨s, inside, opcode, rfl, written⟩
    rw [varies] at constant
    contradiction
  · intro s inside g listed
    refine Group.servesMono (fun v slot found => ?_) (fun v c constant => ?_) (fun _ _ read => read)
      (laid.served s inside g listed)
    · obtain ⟨j, owner, rfl⟩ := (saved.slots v slot).mp found
      exact ⟨j, owner, number j (List.getElem?_eq_some_iff.mp owner).1⟩
    · obtain ⟨t, making, made⟩ := (laid.constants v c).mp constant
      exact ⟨t.instr, given ▸ List.mem_map_of_mem making, made⟩

/-- All that allocation inserts are groups in front of the instructions that need them. The spill slots
are stored to once each in the order of their addresses, loads find what was stored, and each slot
belongs to one value, which is no constant. -/
theorem spillCodeShape (b : Block) (sound : b.Sound) (given : ∀ i ∈ b.values, i.inserted = false)
    (short : 11 * b.size < 4294967295) (k : Nat) (options : Options) (output : Output)
    (ok : (b.allocate k options).2.result = .ok output) :
    ∃ stretches owners,
      SpillCode (b.allocate k options).2.block options.base output stretches owners := by
  obtain ⟨steps, renamed, renames, spells⟩ := b.renameOk sound given (by omega)
  rw [allocateOk renamed] at ok ⊢
  obtain ⟨plan, m, made, walks, stage, spelled, rfl⟩ := allocatedWalk spells renames (Nat.le_refl _) ok
  obtain ⟨stretches, laid⟩ := walksLaid renames
    (fun e inside => given e.2 (List.mem_map_of_mem inside)) (initialStage plan _ steps)
    (Nat.le_refl _) walks (initialLaid plan steps)
  have shape := laidSpillCode spelled stage.sound.saved laid
  rw [planOptions made] at shape
  exact ⟨stretches, m.owners, shape⟩

theorem spilledSumSpillCode :
    (spilledSum.allocate 3 {}).2.result = .ok ⟨2, some ⟨2⟩, 2, ⟨3, 2, 2, 1, 9⟩⟩ ∧
      ∃ stretches owners, SpillCode (spilledSum.allocate 3 {}).2.block ({} : Options).base
        ⟨2, some ⟨2⟩, 2, ⟨3, 2, 2, 1, 9⟩⟩ stretches owners := by
  have ok : (spilledSum.allocate 3 {}).2.result = .ok ⟨2, some ⟨2⟩, 2, ⟨3, 2, 2, 1, 9⟩⟩ := by
    decide +kernel
  exact ⟨ok, spillCodeShape spilledSum (Chain.ofListSound _) (by decide +kernel) (by decide +kernel) 3
    {} _ ok⟩

end Allocation
end Straightline
