import Straightline.Proofs.Allocation.NextUses
import Straightline.Proofs.Allocation.SpillCode

/-! An allocation between two instructions. After any number of instructions the values in registers
are those read again, each with the position of its first read to come; every value met so far that is
read again can be had, from its register, from its constant or from its slot; and the slots in use are
the first ones from the base on. -/
namespace Straightline

def ValueReadAt (is : List Instr) (p : Nat) (v : VirtualReg) : Prop :=
  ∃ i ∈ is[p]?, some v ∈ i.readRegs .virtual

def ValueWrittenAt (is : List Instr) (p : Nat) (v : VirtualReg) : Prop :=
  ∃ i ∈ is[p]?, i.writtenReg .virtual = some (some v)

structure FirstValueRead (is : List Instr) (v : VirtualReg) (since q : Nat) : Prop where
  late : since ≤ q
  reads : ValueReadAt is q v
  first : ∀ x, since ≤ x → x < q → ¬ ValueReadAt is x v

section
variable {is js : List Instr} {i : Instr} {v : VirtualReg} {q q' since : Nat}

theorem valueReadBehind : ValueReadAt (is ++ js) (is.length + q) v ↔ ValueReadAt js q v := by
  rw [ValueReadAt, List.getElem?_append_right (Nat.le_add_right _ _), Nat.add_sub_cancel_left,
    ValueReadAt]

theorem firstValueReadBehind (is : List Instr) (first : FirstValueRead js v since q) :
    FirstValueRead (is ++ js) v (is.length + since) (is.length + q) := by
  refine ⟨Nat.add_le_add_left first.late _, valueReadBehind.mpr first.reads, fun x late early => ?_⟩
  obtain ⟨y, rfl⟩ := Nat.exists_eq_add_of_le (Nat.le_trans (Nat.le_add_right _ _) late)
  rw [valueReadBehind]
  exact first.first y (by omega) (by omega)

theorem firstValueReadUnique (first : FirstValueRead is v since q)
    (first' : FirstValueRead is v since q') : q = q' := by
  rcases Nat.lt_trichotomy q q' with less | same | more
  · exact absurd first.reads (first'.first q first.late less)
  · exact same
  · exact absurd first'.reads (first.first q' first'.late more)

end

namespace Renaming
variable {position q : Nat} {es : List (Handle × Instr)} {steps : List Step} {v : VirtualReg}
  {u : NextUse}

theorem nextFirst (renames : Renames position es steps) (next : (envAbove steps).Next v u) :
    ∃ q, u.rank = position + q ∧ u.position? = some (position + q) ∧
      FirstValueRead (steps.map Step.instr) v 0 q := by
  induction renames with
  | nil =>
    obtain ⟨r, range, -⟩ := next
    simp [envAbove] at range
  | @cons position h i j env es steps inRange pass rest ih =>
    by_cases read : some v ∈ j.readRegs .virtual
    · obtain ⟨slot, inside, virtual⟩ := Instr.memReadRegs.mp read
      obtain rfl := nextUnique pass.sound next (nextRead pass inRange inside virtual)
      exact ⟨0, rfl, rfl, Nat.zero_le _, ⟨j, rfl, read⟩, fun x _ none => absurd none (Nat.not_lt_zero x)⟩
    · obtain ⟨q, rank, found, first⟩ := ih (nextSame pass inRange read next)
      have unread : ¬ ValueReadAt ((j :: steps.map Step.instr)) 0 v := by
        rintro ⟨i, here, read'⟩
        cases here
        exact read read'
      refine ⟨q + 1, by omega, by rw [found, Nat.add_assoc, Nat.add_comm 1], Nat.zero_le _,
        first.reads, fun x _ less => ?_⟩
      cases x with
      | zero => exact unread
      | succ x => exact first.first x (Nat.zero_le _) (by omega)

theorem readLive (renames : Renames position es steps)
    (read : ValueReadAt (steps.map Step.instr) q v) :
    (envAbove steps).Live v ∨ some v ∈ writtenRegs .virtual (steps.map Step.instr) := by
  induction renames generalizing q with
  | nil =>
    obtain ⟨i, none, -⟩ := read
    simp at none
  | @cons position h i j env es steps inRange pass rest ih =>
    have flows := renamesFlows pass rest
    rw [List.map_cons, writtenRegsCons, List.mem_append]
    cases q with
    | zero =>
      obtain ⟨i, here, inside⟩ := read
      cases here
      obtain ⟨slot, inside, virtual⟩ := Instr.memReadRegs.mp inside
      exact .inl (flowsRead flows inside virtual).1
    | succ q =>
      rcases ih read with live | written
      · rcases flows.kept v live with old | here
        · exact .inl old
        · exact .inr (.inl (Option.mem_toList.mpr here))
      · exact .inr (.inr written)

end Renaming

namespace Allocation
open Renaming (Env Step Renames Flows envAbove)

def Work.after {α : Type} (work : Work α) (s : State) : Option State :=
  match work s with
  | .ok _ t => some t
  | .error _ _ => none

theorem afterSome {α : Type} {work : Work α} {s t : State} :
    work.after s = some t ↔ ∃ a, work s = .ok a t := by
  unfold Work.after
  cases work s with
  | ok a t' => simp
  | error e t' => simp

def Ledger.Meets (l : Ledger) : Prop :=
  ∀ v, (l.record v).status = .unknown → (l.record v).home = none

/-- What holds of the ledger with the instructions `past` behind it and `steps` to come. -/
structure Midway (plan : Plan) (n : Nat) (past steps : List Step) (l : Ledger) : Prop where
  renames : ∃ es, Renames past.length es steps ∧ ∀ e ∈ es, e.2.inserted = false
  numbered : (envAbove steps).minted ≤ n
  stage : Stage plan n steps l
  tracks : l.Tracks (envAbove steps)
  meets : l.Meets
  unmet : ∀ v, (l.record v).status = .unknown → ∀ s ∈ past,
    some v ∉ s.instr.readRegs .virtual ∧ s.instr.writtenReg .virtual ≠ some (some v)
  laid : ∃ stretches, Laid plan l stretches ∧
    List.Forall₂ Instr.Houses (past.map Step.instr) (stretches.map Stretch.instr)

section
variable {plan : Plan} {n : Nat} {site : Site} {l m k : Ledger} {i : Instr} {h : Handle}
  {slots : List Slot} {v w : VirtualReg} {p : PhysicalReg} {u : NextUse} {s : Step}
  {past steps : List Step}

theorem takesMeets (takes : Takes plan site l p m) (meets : l.Meets) : m.Meets := by
  intro w unknown
  rcases takesRecord takes w with same | ⟨-, home, -⟩
  · rw [same] at unknown ⊢
    exact meets w unknown
  · exact home

theorem bringsMeets (brings : Brings plan site v p u l m) (meets : l.Meets) : m.Meets := by
  intro w unknown
  by_cases same : w = v
  · subst same
    cases brings <;> simp at unknown
  · rw [bringsRecord brings same] at unknown ⊢
    exact meets w unknown

theorem releaseStatus (l : Ledger) (v w : VirtualReg) :
    ((l.release v).record w).status = (l.record w).status := by
  unfold Ledger.release
  split
  · by_cases same : w = v
    · subst same
      simp
    · simp [Function.update_of_ne same]
  · rfl

theorem releaseMeets (l : Ledger) (v : VirtualReg) (meets : l.Meets) : (l.release v).Meets := by
  intro w unknown
  rw [releaseStatus] at unknown
  by_contra home
  exact (releaseHome home).2 (meets w unknown)

theorem defineMeets (l : Ledger) (slot : Slot) (v : VirtualReg) (p : PhysicalReg) (meets : l.Meets) :
    (l.define i slot v p).Meets := by
  intro w unknown
  by_cases same : w = v
  · subst same
    simp [Ledger.define] at unknown
  · simp only [Ledger.define, Function.update_of_ne same] at unknown ⊢
    exact meets w unknown

theorem takesKnown (takes : Takes plan site l p m) (known : (l.record w).status ≠ .unknown) :
    (m.record w).status ≠ .unknown := by
  rcases takesRecord takes w with same | ⟨-, -, clean, -⟩
  · rwa [same]
  · simp [clean]

theorem bringsKnown (brings : Brings plan site v p u l m) (known : (l.record w).status ≠ .unknown) :
    (m.record w).status ≠ .unknown := by
  by_cases same : w = v
  · subst same
    cases brings <;> simp
  · rwa [bringsRecord brings same]

theorem defineKnown (l : Ledger) (slot : Slot) (v : VirtualReg) (p : PhysicalReg)
    (known : (l.record w).status ≠ .unknown) :
    ((l.define i slot v p).record w).status ≠ .unknown := by
  by_cases same : w = v
  · subst same
    simp [Ledger.define]
  · simpa [Ledger.define, Function.update_of_ne same] using known

theorem definesKnown (defines : Defines plan site i l k) (known : (l.record w).status ≠ .unknown) :
    (k.record w).status ≠ .unknown :=
  definesInduct (fun l => (l.record w).status ≠ .unknown) takesKnown
    (fun l v known => by rwa [releaseStatus]) defineKnown defines known

theorem definesWritten (defines : Defines plan site i l k)
    (written : i.writtenReg .virtual = some (some w)) : (k.record w).status ≠ .unknown := by
  obtain ⟨slot, writes, virtual⟩ := Instr.memWrittenReg.mp written
  cases defines with
  | nothing silent =>
    rw [silent] at writes
    contradiction
  | @value slot' v p m writes' virtual' takes =>
    obtain rfl := Option.some.inj (writes.symm.trans writes')
    obtain rfl := Option.some.inj (Eq.trans (Eq.symm virtual) virtual')
    unfold Ledger.settle
    split
    · rw [releaseStatus]
      simp [Ledger.define]
    · simp [Ledger.define]

theorem crossesUnmet (wants : Wants n i l) (sound : Sound plan n l l.free) (meets : l.Meets)
    (crosses : Crosses plan h i l k) (unknown : (k.record v).status = .unknown) :
    (l.record v).status = .unknown ∧ some v ∉ i.readRegs .virtual ∧
      i.writtenReg .virtual ≠ some (some v) := by
  obtain @⟨m, _, reads, writes⟩ := crosses
  have resolved : (m.record v).status = .unknown := by
    by_contra known
    refine definesKnown writes (releasesInduct (fun l => (l.record v).status ≠ .unknown) ?_ _ known)
      unknown
    exact fun l w known => by rwa [releaseStatus]
  refine ⟨?_, fun read => ?_, fun written => definesWritten writes written unknown⟩
  · by_contra known
    exact resolvesInduct (fun l => (l.record v).status ≠ .unknown) takesKnown bringsKnown
      (fun _ _ _ _ known => known) reads known resolved
  · -- The value read has its register once the operands are resolved, so it is known by then.
    have met : m.Meets := resolvesInduct Ledger.Meets takesMeets bringsMeets
      (fun _ _ _ _ meets => meets) reads meets
    obtain ⟨q, u, -, held⟩ := readPresent wants sound reads read
    have tables := (resolvesReading (wantsKnown wants) reads (startReading sound)).sound.tables
    have home := (tables.home v q).mpr ⟨u, held⟩
    rw [met v resolved] at home
    contradiction

theorem crossesMeets (crosses : Crosses plan h i l k) (meets : l.Meets) : k.Meets :=
  crossesInduct Ledger.Meets takesMeets bringsMeets (fun _ _ _ _ meets => meets)
    (fun _ meets => meets) releaseMeets (fun l => defineMeets l) crosses meets

theorem midwayWants (midway : Midway plan n past (s :: steps) l) : Wants n s.instr l := by
  obtain ⟨es, renames, -⟩ := midway.renames
  exact stageWants renames midway.stage midway.numbered

theorem crossesMidway (midway : Midway plan n past (s :: steps) l)
    (crosses : Crosses plan s.handle s.instr l k) : Midway plan n (past ++ [s]) steps k.advance := by
  obtain ⟨⟨es, renames, given⟩, numbered, stage, tracks, meets, unmet, stretches, laid, housed⟩ := midway
  have wants := stageWants renames stage numbered
  have tracks' := crossesTracks renames stage numbered tracks crosses
  have stage' := crossesStage renames stage numbered crosses
  have unmet' := fun v => crossesUnmet (v := v) wants stage.sound meets crosses
  have meets' : k.Meets := crossesMeets crosses meets
  cases renames with
  | @cons _ h i j env es _ inRange pass rest =>
    have original : j.inserted = false :=
      pass.relabels.inserted.trans (given (h, i) List.mem_cons_self)
    obtain ⟨t, houses, laid'⟩ := crossesLaid wants stage.sound stage.rest original crosses laid
    refine ⟨⟨es, ?_, fun e inside => given e (List.mem_cons_of_mem _ inside)⟩,
      Nat.le_trans pass.minted.1 numbered, stage', tracks', meets', ?_,
      stretches ++ [t], laid', ?_⟩
    · rw [List.length_append, List.length_singleton]
      exact rest
    · intro v unknown s inside
      obtain ⟨before, unread, unwritten⟩ := unmet' v unknown
      rcases List.mem_append.mp inside with old | last
      · exact unmet v before s old
      · rw [List.mem_singleton.mp last]
        exact ⟨unread, unwritten⟩
    · rw [List.map_append, List.map_append]
      exact List.rel_append housed (.cons houses .nil)

theorem initialMidway {es : List (Handle × Instr)} (plan : Plan) (renames : Renames 0 es steps)
    (given : ∀ e ∈ es, e.2.inserted = false) (numbered : (envAbove steps).minted ≤ n) :
    Midway plan n [] steps (Ledger.initial plan steps) := by
  refine ⟨⟨es, renames, given⟩, numbered, initialStage plan n steps, fun q v u held => ?_,
    fun v _ => rfl, by simp, [], initialLaid plan steps, .nil⟩
  simp [Ledger.initial] at held

theorem runsMidway (few : plan.usable ≤ 64) (now : List Step)
    (midway : Midway plan n past (now ++ steps) l) :
    Runs plan n ((now.map Step.handle).forM (Work.allocateInstr plan)) l
      (fun _ m => Midway plan n (past ++ now) steps m) fun _ _ => True := by
  induction now generalizing past l with
  | nil =>
    rw [List.append_nil]
    exact runsPure midway
  | cons s now ih =>
    rw [List.map_cons, List.forM_eq_forM, List.forM_cons]
    refine runsBind (runsInstr few midway.stage.sound midway.stage.rest (midwayWants midway)
      (fun k crosses => ?_) fun _ _ _ => trivial)
    have next := ih (crossesMidway midway crosses)
    rw [List.append_assoc] at next
    exact fun state reflects => next state (reflectsAdvance reflects)

end

structure State.InOrder (plan : Plan) (is : List Instr) (p : Nat) (s : State) : Prop where
  size : s.registers.size = plan.usable
  homes : ∀ (v : VirtualReg) (c : PhysicalReg), (∃ x ∈ s.values[v.number]?, x.home = some c) ↔
    ∃ u, s.registers[c.number]? = some (some ⟨v, u⟩)
  free : s.free.Nodup ∧ ∀ c : PhysicalReg, c ∈ s.free ↔ s.registers[c.number]? = some none
  reads : ∀ (c : PhysicalReg) v u, s.registers[c.number]? = some (some ⟨v, u⟩) →
    ∃ q, u.position? = some q ∧ FirstValueRead is v p q
  kept : ∀ v, (∃ q < p, ValueReadAt is q v ∨ ValueWrittenAt is q v) →
    (∃ q, p ≤ q ∧ ValueReadAt is q v) → ∃ x ∈ s.values[v.number]?, x.home.isSome ∨
      x.status = .clean ∧ (∃ q < p, ∃ i ∈ is[q]?, i.opcode = .loadI ∧
        i.writtenReg .virtual = some (some v) ∧ x.constant = some i.constant) ∨
      x.status = .clean ∧ x.constant = none ∧ ∃ w ∈ x.slot, w.toNat ≠ 4294967295
  apart : ∀ (v v' : VirtualReg) w, (∃ x ∈ s.values[v.number]?, x.slot = some w) →
    (∃ x ∈ s.values[v'.number]?, x.slot = some w) → v = v'
  slots : ∀ w, (∃ v : VirtualReg, ∃ x ∈ s.values[v.number]?, x.slot = some w) ↔
    ∃ j < s.slots, w.toNat = plan.options.base.toNat + 4 * j
  next : s.nextAddress.toNat = plan.options.base.toNat + 4 * s.slots

section
variable {plan : Plan} {n : Nat} {s : State} {l : Ledger} {v : VirtualReg} {p : PhysicalReg}
  {x : Value} {past steps : List Step}

theorem reflectsValue (reflects : Reflects plan n s l) :
    s.values[v.number]? = some x ↔ v.number < n ∧ l.record v = x := by
  rw [reflects.record, ← reflects.values]
  by_cases inside : v.number < s.values.size <;> simp [inside]

theorem reflectsOccupant (reflects : Reflects plan n s l) {o : Option Occupant} :
    s.registers[p.number]? = some o ↔ p.number < plan.usable ∧ l.holder p = o := by
  rw [reflects.holder, ← reflects.registers]
  by_cases inside : p.number < s.registers.size <;> simp [inside]

theorem slotNumbered (saved : Saved plan n l) {w : Word} : (l.record v).slot = some w ↔
    ∃ j, l.owners[j]? = some v ∧ w.toNat = plan.options.base.toNat + 4 * j := by
  rw [saved.slots]
  refine exists_congr fun j => and_congr_right fun owner => ?_
  have inside := (List.getElem?_eq_some_iff.mp owner).1
  have room := saved.room (List.ne_nil_of_length_pos (Nat.zero_lt_of_lt inside))
  have number : (plan.slotAt j).toNat = plan.options.base.toNat + slotSize * j :=
    slotNumber (Nat.lt_of_le_of_lt
      (Nat.add_le_add_left (Nat.mul_le_mul_left _ (Nat.le_of_lt inside)) _) room)
  rw [← UInt32.toNat_inj, number, slotSize]

theorem midwayConstants (midway : Midway plan n past steps l) {c : Word} :
    (l.record v).constant = some c ↔ ∃ s ∈ past, s.instr.opcode = .loadI ∧ s.instr.constant = c ∧
      s.instr.writtenReg .virtual = some (some v) := by
  obtain ⟨stretches, laid, housed⟩ := midway.laid
  rw [laid.constants]
  have same : ∀ {is : List Instr} {js : List Instr}, List.Forall₂ Instr.Houses is js →
      ((∃ j ∈ js, j.opcode = .loadI ∧ j.constant = c ∧ j.writtenReg .virtual = some (some v)) ↔
        ∃ i ∈ is, i.opcode = .loadI ∧ i.constant = c ∧ i.writtenReg .virtual = some (some v)) := by
    intro is js housed
    induction housed with
    | nil => simp
    | cons houses _ ih =>
      simp only [List.exists_mem_cons_iff, ih, houses.opcode, houses.constant,
        Instr.housesWritten houses]
  simpa using same housed

theorem midwayMet (midway : Midway plan n past steps l) {q r : Nat}
    (early : q < past.length)
    (met : ValueReadAt ((past ++ steps).map Step.instr) q v ∨
      ValueWrittenAt ((past ++ steps).map Step.instr) q v)
    (again : ValueReadAt (steps.map Step.instr) r v) :
    (envAbove steps).Live v ∧ (l.record v).status ≠ .unknown := by
  obtain ⟨es, renames, -⟩ := midway.renames
  have known : (l.record v).status ≠ .unknown := by
    intro unknown
    have there : ((past ++ steps).map Step.instr)[q]? = some past[q].instr := by
      rw [List.getElem?_map, List.getElem?_append_left early, List.getElem?_eq_getElem early,
        Option.map_some]
    obtain ⟨unread, unwritten⟩ := midway.unmet v unknown past[q] (List.getElem_mem early)
    rcases met with ⟨i, here, read⟩ | ⟨i, here, written⟩
    · obtain rfl := Option.some.inj (there.symm.trans here)
      exact unread read
    · obtain rfl := Option.some.inj (there.symm.trans here)
      exact unwritten written
  refine ⟨(Renaming.readLive renames again).resolve_right fun written => known ?_, known⟩
  rw [midway.stage.fresh v written]

theorem midwayKept (midway : Midway plan n past steps l) (live : (envAbove steps).Live v)
    (known : (l.record v).status ≠ .unknown) :
    (l.record v).home.isSome ∨
      (l.record v).status = .clean ∧ (∃ q < past.length, ∃ i ∈ ((past ++ steps).map Step.instr)[q]?,
        i.opcode = .loadI ∧ i.writtenReg .virtual = some (some v) ∧
          (l.record v).constant = some i.constant) ∨
      (l.record v).status = .clean ∧ (l.record v).constant = none ∧
        ∃ w ∈ (l.record v).slot, w.toNat ≠ 4294967295 := by
  have saved := midway.stage.sound.saved
  cases home : (l.record v).home with
  | some c => exact .inl rfl
  | none =>
    have ready := midway.stage.ready v live home
    have clean : (l.record v).status = .clean := by
      cases status : (l.record v).status with
      | unknown => exact absurd status known
      | clean => rfl
      | dirty => exact absurd status ready
    refine .inr ?_
    cases constant : (l.record v).constant with
    | some c =>
      obtain ⟨s, inside, opcode, rfl, written⟩ := (midwayConstants midway).mp constant
      obtain ⟨q, early, rfl⟩ := List.getElem_of_mem inside
      refine .inl ⟨clean, q, early, past[q].instr, ?_, opcode, written, rfl⟩
      rw [List.getElem?_map, List.getElem?_append_left early, List.getElem?_eq_getElem early]
      rfl
    | none =>
      obtain ⟨w, slot⟩ := Option.isSome_iff_exists.mp ((saved.kept v).clean clean constant)
      obtain ⟨j, owner, number⟩ := (slotNumbered saved).mp slot
      have inside := (List.getElem?_eq_some_iff.mp owner).1
      have room := saved.room (List.ne_nil_of_length_pos (Nat.zero_lt_of_lt inside))
      rw [slotSize] at room
      exact .inr ⟨clean, rfl, w, slot, by omega⟩

theorem midwayInOrder (reflects : Reflects plan n s l) (midway : Midway plan n past steps l) :
    s.InOrder plan ((past ++ steps).map Step.instr) past.length := by
  have tables := midway.stage.sound.tables
  have saved := midway.stage.sound.saved
  obtain ⟨es, renames, -⟩ := midway.renames
  have lengths : (past.map Step.instr).length = past.length := List.length_map _
  have recorded : ∀ (v : VirtualReg) (P : Value → Prop), ¬ P {} →
      ((∃ x ∈ s.values[v.number]?, P x) ↔ P (l.record v)) := by
    intro v P outside
    constructor
    · rintro ⟨x, found, holds⟩
      rwa [((reflectsValue reflects).mp found).2]
    · intro holds
      cases found : s.values[v.number]? with
      | some x => exact ⟨x, rfl, ((reflectsValue reflects).mp found).2 ▸ holds⟩
      | none =>
        rw [reflects.record, found] at holds
        exact absurd holds outside
  refine ⟨reflects.registers, fun v c => ?_, ⟨?_, fun c => ?_⟩, fun c v u held => ?_, ?_, ?_, ?_, ?_⟩
  · rw [recorded v (fun x => x.home = some c) (by simp), tables.home]
    refine exists_congr fun u => ?_
    rw [reflectsOccupant reflects]
    exact ⟨fun held => ⟨(tables.held c _ held).1, held⟩, fun held => held.2⟩
  · rw [← reflects.free]
    exact tables.nodup
  · rw [← reflects.free, tables.empty, reflectsOccupant reflects]
  · obtain ⟨q, -, position, first⟩ := Renaming.nextFirst renames
      (midway.tracks c v u ((reflectsOccupant reflects).mp held).2)
    have behind := firstValueReadBehind (past.map Step.instr) first
    rw [← List.map_append, lengths] at behind
    exact ⟨past.length + q, position, behind⟩
  · rintro v ⟨q, early, met⟩ ⟨r, late, again⟩
    obtain ⟨r, rfl⟩ := Nat.exists_eq_add_of_le late
    rw [List.map_append, ← lengths, valueReadBehind] at again
    obtain ⟨live, known⟩ := midwayMet midway early met again
    refine ⟨l.record v, (reflectsValue reflects).mpr ⟨?_, rfl⟩, midwayKept midway live known⟩
    by_contra outside
    have none : s.values[v.number]? = none := by
      rw [Array.getElem?_eq_none_iff, reflects.values]
      exact Nat.le_of_not_lt outside
    rw [reflects.record, none] at known
    exact known rfl
  · intro v v' w here there
    rw [recorded v (fun x => x.slot = some w) (by simp), slotNumbered saved] at here
    rw [recorded v' (fun x => x.slot = some w) (by simp), slotNumbered saved] at there
    obtain ⟨j, owner, number⟩ := here
    obtain ⟨j', owner', number'⟩ := there
    obtain rfl : j = j' := by omega
    exact Option.some.inj (owner.symm.trans owner')
  · intro w
    simp only [fun v => recorded v (fun x => x.slot = some w) (by simp), slotNumbered saved,
      ← reflects.slots]
    constructor
    · rintro ⟨v, j, owner, number⟩
      exact ⟨j, (List.getElem?_eq_some_iff.mp owner).1, number⟩
    · rintro ⟨j, inside, number⟩
      exact ⟨l.owners[j], j, List.getElem?_eq_getElem inside, number⟩
  · rw [reflects.next, reflects.slots, slotSize]

end

theorem allocationStaysInOrder (b : Block) (sound : b.Sound)
    (given : ∀ i ∈ b.values, i.inserted = false) (short : 11 * b.size < 4294967295) (k : Nat)
    (options : Options) :
    ∃ summary, b.rename.result = .ok summary ∧ ∀ plan, Plan.make k summary options = .ok plan →
      ∀ past later s, b.rename.block.handles = past ++ later →
        Work.after (past.forM (Work.allocateInstr plan))
          (State.initial b.rename.block plan summary.numVirtual) = some s →
        s.InOrder plan b.rename.block.values past.length := by
  obtain ⟨steps, renamed, renames, spells⟩ := b.renameOk sound given (by omega)
  refine ⟨_, renamed, fun plan made past later s handles passed => ?_⟩
  have listed : b.rename.block.handles = steps.map Step.handle := by
    rw [Chain.spellsHandles spells, List.map_map]
    rfl
  rw [listed, List.map_eq_append_iff] at handles
  obtain ⟨now, rest, rfl, rfl, -⟩ := handles
  have start := initialMidway (n := (envAbove (now ++ rest)).minted) plan renames
    (fun e inside => given e.2 (List.mem_map_of_mem inside)) (Nat.le_refl _)
  have ran := runsMidway (planSound made).few now start
    (State.initial b.rename.block plan (envAbove (now ++ rest)).summary.numVirtual)
    (initialReflects spells)
  obtain ⟨_, ended⟩ := afterSome.mp passed
  rw [ended] at ran
  obtain ⟨m, reflects, midway⟩ := ran
  rw [List.nil_append] at midway
  rw [Renaming.renamedValues spells, List.length_map]
  exact midwayInOrder reflects midway

theorem spilledSumStaysInOrder :
    let plan : Plan := ⟨2, some ⟨2⟩, {}⟩
    ∃ s, Work.after ((spilledSum.rename.block.handles.take 5).forM (Work.allocateInstr plan))
        (State.initial spilledSum.rename.block plan 6) = some s ∧ s.slots = 2 ∧
      s.InOrder plan spilledSum.rename.block.values 5 := by
  intro plan
  have renamed : spilledSum.rename.result = .ok ⟨4, 6, 4⟩ := by decide +kernel
  obtain ⟨summary, same, holds⟩ := allocationStaysInOrder spilledSum (Chain.ofListSound _)
    (by decide +kernel) (by decide +kernel) 3 {}
  obtain rfl : ⟨4, 6, 4⟩ = summary := Except.ok.inj (renamed.symm.trans same)
  have slots : (Work.after ((spilledSum.rename.block.handles.take 5).forM (Work.allocateInstr plan))
      (State.initial spilledSum.rename.block plan 6)).map State.slots = some 2 := by decide +kernel
  obtain ⟨s, passed, two⟩ := Option.map_eq_some_iff.mp slots
  have order := holds plan rfl _ (spilledSum.rename.block.handles.drop 5) s
    (List.take_append_drop 5 _).symm passed
  have five : (spilledSum.rename.block.handles.take 5).length = 5 := by decide +kernel
  rw [five] at order
  exact ⟨s, passed, two, order⟩

end Allocation
end Straightline
