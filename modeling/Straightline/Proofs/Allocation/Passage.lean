import Straightline.Proofs.Allocation.Audit
import Straightline.Proofs.Allocation.Steps

/-! An allocation passes an instruction. The operands that it reads are resolved one after the other,
the values read for the last time are released, and the value that it writes is defined. -/
namespace Straightline

structure Instr.Houses (i j : Instr) : Prop where
  line : j.line = i.line
  opcode : j.opcode = i.opcode
  constant : j.constant = i.constant
  inserted : j.inserted = i.inserted
  virtual : ∀ slot, (j.operand slot).virtual = (i.operand slot).virtual

theorem Instr.housesRefl (i : Instr) : i.Houses i := ⟨rfl, rfl, rfl, rfl, fun _ => rfl⟩

theorem Instr.housesSet {i j : Instr} (houses : i.Houses j) (slot : Slot) (p : PhysicalReg) :
    i.Houses (j.setPhysical slot p) := by
  obtain ⟨line, opcode, constant, inserted, virtual⟩ := houses
  refine ⟨?_, ?_, ?_, ?_, fun other => ?_⟩
  · rw [← line]; cases slot <;> rfl
  · rw [← opcode]; cases slot <;> rfl
  · rw [← constant]; cases slot <;> rfl
  · rw [← inserted]; cases slot <;> rfl
  · rw [← virtual]
    by_cases same : other = slot
    · subst same
      rw [setPhysical, operandSetSame]
    · rw [setPhysical, operandSetOther _ _ same]

namespace Allocation

namespace Ledger

def releases (l : Ledger) (vs : List VirtualReg) : Ledger := vs.foldl release l

def settle (l : Ledger) (v : VirtualReg) (u : NextUse) : Ledger :=
  if u = .never then l.release v else l

end Ledger

inductive Defines (plan : Plan) (site : Site) (i : Instr) (l : Ledger) : Ledger → Prop where
  | nothing (silent : i.opcode.writes = none) : Defines plan site i l l
  | value {slot : Slot} {v : VirtualReg} {p : PhysicalReg} {m : Ledger}
      (writes : i.opcode.writes = some slot) (virtual : (i.operand slot).virtual = some v)
      (takes : Takes plan site l p m) :
      Defines plan site i l ((m.define i slot v p).settle v (i.operand slot).nextUse)

inductive Crosses (plan : Plan) (h : Handle) (i : Instr) (l : Ledger) : Ledger → Prop where
  | mk {m k : Ledger} (reads : Resolves plan ⟨h, i.line⟩ i i.opcode.reads l.unpin m)
      (writes : Defines plan ⟨h, i.line⟩ i (m.releases i.lastReads).unpin k) : Crosses plan h i l k

inductive Blocked (plan : Plan) (n : Nat) (h : Handle) (i : Instr) (l : Ledger) :
    Stop → Ledger → Prop where
  | reading {e : Stop} {m : Ledger}
      (unresolved : Unresolved plan n ⟨h, i.line⟩ i e i.opcode.reads l.unpin m) :
      Blocked plan n h i l e m
  | writing {e : Stop} {m k : Ledger} {slot : Slot}
      (reads : Resolves plan ⟨h, i.line⟩ i i.opcode.reads l.unpin m)
      (writes : i.opcode.writes = some slot)
      (stops : Stops plan n ⟨h, i.line⟩ (m.releases i.lastReads).unpin e k) : Blocked plan n h i l e k

structure Reading (plan : Plan) (n : Nat) (l : Ledger) : Prop where
  sound : Sound plan n l l.free
  pins : l.Pins

section
variable {plan : Plan} {n : Nat} {site : Site} {l m k : Ledger} {i : Instr} {slots : List Slot}
  {rest : List (Handle × Instr)} {v w : VirtualReg} {p : PhysicalReg} {u : NextUse} {h : Handle}
  {finish : Unit → Ledger → Prop} {stopped : Stop → Ledger → Prop}

theorem fetchesRest (fetches : Fetches plan site v u l p m) :
    m.rest = l.rest ∧ m.pinned = l.pinned := by
  cases fetches with
  | resident => exact ⟨rfl, rfl⟩
  | brought away takes brings =>
    obtain ⟨rest, pinned⟩ := takesRest takes
    obtain ⟨rest', pinned', -⟩ := bringsRest brings
    exact ⟨rest'.trans rest, pinned'.trans pinned⟩

theorem fetchesReady (fetches : Fetches plan site v u l p m) (ready : l.Ready w) : m.Ready w := by
  cases fetches with
  | resident => exact ready
  | @brought k _ away takes brings =>
    intro home
    by_cases same : w = v
    · rw [same, bringsHome brings] at home
      contradiction
    · rw [bringsRecord brings same] at home ⊢
      rcases takesRecord takes w with kept | ⟨-, -, clean, -⟩
      · rw [kept] at home ⊢
        exact ready home
      · simp [clean]

theorem fetchesHolder (reading : Reading plan n l) (fetches : Fetches plan site v u l p m)
    {q : PhysicalReg} (pinned : l.pinned.contains q = true) : m.holder q = l.holder q := by
  cases fetches with
  | resident => rfl
  | brought away takes brings =>
    have unpinned := takesUnpinned reading.sound reading.pins takes
    have other : q ≠ p := fun same => by simp [same, unpinned] at pinned
    rw [bringsHolder brings, Function.update_of_ne other, takesHolder takes other]

theorem fetchesReading (reading : Reading plan n l) (known : v.number < n)
    (fetches : Fetches plan site v u l p m) (slot : Slot) :
    Reading plan n (m.resolve slot p u) := by
  obtain ⟨sound, u', held⟩ := fetchesSound reading.sound known fetches
  refine ⟨resolveSound sound held slot u, fun q pinned => ?_⟩
  simp only [Ledger.resolve] at pinned ⊢
  by_cases here : q = p
  · subst here
    simp [held]
  · rw [RegisterSet.containsInsert, (fetchesRest fetches).2] at pinned
    have earlier : l.pinned.contains q = true := by simpa [Ne.symm here] using pinned
    rw [Function.update_of_ne here, fetchesHolder reading fetches earlier]
    exact reading.pins q earlier

theorem resolvesReading (known : ∀ slot ∈ slots, ∀ v, (i.operand slot).virtual = some v → v.number < n)
    (resolves : Resolves plan site i slots l m) (reading : Reading plan n l) : Reading plan n m := by
  induction resolves with
  | nil => exact reading
  | cons virtual fetches rest ih =>
    refine ih (fun slot inside => known slot (List.mem_cons_of_mem _ inside)) ?_
    exact fetchesReading reading (known _ List.mem_cons_self _ virtual) fetches _

theorem resolveRest {slot : Slot} {j : Instr} (head : l.rest = (site.handle, j) :: rest) :
    (l.resolve slot p u).rest = (site.handle, j.setPhysical slot p) :: rest := by
  simp [Ledger.resolve, Ledger.assign, head]

theorem runsReads {j : Instr} (reading : Reading plan n l)
    (head : l.rest = (site.handle, j) :: rest)
    (ready : ∀ slot ∈ slots, ∃ v, (i.operand slot).virtual = some v ∧ v.number < n ∧ l.Ready v)
    (holds : ∀ m, Resolves plan site i slots l m → finish () m)
    (stop : ∀ e m, Unresolved plan n site i e slots l m → stopped e m) :
    Runs plan n (slots.forM (Work.readSlot plan site i)) l finish stopped := by
  induction slots generalizing l j with
  | nil => exact runsPure (holds l (.nil l))
  | cons slot slots ih =>
    obtain ⟨v, virtual, known, first⟩ := ready slot List.mem_cons_self
    rw [List.forM_eq_forM, List.forM_cons]
    refine runsBind ?_
    unfold Work.readSlot
    simp only [virtual]
    refine runsBind (runsPure (runsBind (runsFetch reading.sound reading.pins known first head
      (fun p m fetches => ?_) fun away e m stops => stop e m (.here virtual away stops))))
    have head' := (fetchesRest fetches).1.trans head
    obtain ⟨sound, u, held⟩ := fetchesSound reading.sound known fetches
    refine runsBind (runsAssign head' (runsBind (runsModify (m := {m.assign slot p with
      pinned := m.pinned.insert p}) ?_ fun s reflects => {reflects with pinned := ?_})))
    · refine runsUpdateRegister (sound.tables.held p _ held).1 ?_
      refine ih (fetchesReading reading known fetches slot) (resolveRest head')
        (fun slot inside => ?_) (fun k resolves => holds k (.cons virtual fetches resolves))
        fun e k unresolved => stop e k (.later virtual fetches unresolved)
      obtain ⟨w, virtual', known', ready⟩ := ready slot (List.mem_cons_of_mem _ inside)
      have ready' : m.Ready w := fetchesReady fetches ready
      exact ⟨w, virtual', known', ready'⟩
    · rw [← reflects.pinned]
      rfl

theorem resolvesHouses {j : Instr} (resolves : Resolves plan site i slots l m)
    (houses : i.Houses j) (head : l.rest = (site.handle, j) :: rest) :
    ∃ j, i.Houses j ∧ m.rest = (site.handle, j) :: rest := by
  induction resolves generalizing j with
  | nil => exact ⟨j, houses, head⟩
  | cons virtual fetches rest ih =>
    exact ih (Instr.housesSet houses _ _) (resolveRest ((fetchesRest fetches).1.trans head))

theorem takesNew (sound : Sound plan n l l.free) (takes : Takes plan site l p m)
    (new : l.record v = {}) : m.record v = {} := by
  rcases takesRecord takes v with kept | ⟨held, -⟩
  · rw [kept, new]
  · have home := (sound.tables.home v p).mpr held
    simp [new] at home

theorem fetchesNew (sound : Sound plan n l l.free) (fetches : Fetches plan site v u l p m)
    (other : w ≠ v) (new : l.record w = {}) : m.record w = {} := by
  cases fetches with
  | resident => exact new
  | brought away takes brings =>
    rw [bringsRecord brings other]
    exact takesNew sound takes new

theorem resolvesNew (known : ∀ slot ∈ slots, ∀ v, (i.operand slot).virtual = some v → v.number < n)
    (resolves : Resolves plan site i slots l m) (reading : Reading plan n l)
    (unread : ∀ slot ∈ slots, (i.operand slot).virtual ≠ some w) (new : l.record w = {}) :
    m.record w = {} := by
  induction resolves with
  | nil => exact new
  | cons virtual fetches rest ih =>
    have known' := known _ List.mem_cons_self _ virtual
    refine ih (fun slot inside => known slot (List.mem_cons_of_mem _ inside))
      (fetchesReading reading known' fetches _)
      (fun slot inside => unread slot (List.mem_cons_of_mem _ inside)) ?_
    have other : w ≠ _ := fun same => unread _ List.mem_cons_self (same ▸ virtual)
    have kept := fetchesNew reading.sound fetches other new
    exact kept

theorem releaseOther (l : Ledger) (other : w ≠ v) : (l.release v).record w = l.record w := by
  unfold Ledger.release
  split
  · exact Function.update_of_ne other _ _
  · rfl

theorem releaseNew (new : l.record w = {}) (v : VirtualReg) : (l.release v).record w = {} := by
  by_cases same : w = v
  · subst same
    simp [Ledger.release, new]
  · rw [releaseOther l same, new]

theorem releasesInduct (motive : Ledger → Prop) (step : ∀ l v, motive l → motive (l.release v))
    (vs : List VirtualReg) (start : motive l) : motive (l.releases vs) := by
  induction vs generalizing l with
  | nil => exact start
  | cons v vs ih => exact ih (step l v start)

theorem releaseRest (l : Ledger) (v : VirtualReg) :
    (l.release v).rest = l.rest ∧ (l.release v).done = l.done := by
  unfold Ledger.release
  split <;> exact ⟨rfl, rfl⟩

theorem runsReleases {vs : List VirtualReg} (sound : Sound plan n l l.free)
    (known : ∀ v ∈ vs, v.number < n) (holds : finish () (l.releases vs)) :
    Runs plan n (vs.forM Work.release) l finish stopped := by
  induction vs generalizing l with
  | nil => exact runsPure holds
  | cons v vs ih =>
    rw [List.forM_eq_forM, List.forM_cons]
    exact runsBind (runsRelease sound (known v List.mem_cons_self) (ih (releaseSound sound v)
      (fun w inside => known w (List.mem_cons_of_mem _ inside)) holds))

theorem runsUnpin (holds : finish () l.unpin) : Runs plan n Work.unpinAll l finish stopped :=
  runsModify holds fun _ reflects => {reflects with pinned := rfl}

theorem runsWrite {j : Instr} {slot : Slot} (sound : Sound plan n l l.free)
    (unpinned : l.pinned = .empty) (head : l.rest = (site.handle, j) :: rest)
    (virtual : (i.operand slot).virtual = some v) (known : v.number < n) (new : l.record v = {})
    (holds : ∀ p m, Takes plan site l p m →
      finish () ((m.define i slot v p).settle v (i.operand slot).nextUse))
    (stop : ∀ e m, Stops plan n site l e m → stopped e m) :
    Runs plan n (Work.writeSlot plan site i slot) l finish stopped := by
  have pins : l.Pins := fun q pinned => by
    rw [unpinned, RegisterSet.containsEmpty] at pinned
    contradiction
  unfold Work.writeSlot
  simp only [virtual]
  refine runsBind (runsPlaceInRegister sound pins known (by rw [new]) head (fun p m takes => ?_) stop)
  refine runsBind (runsAssign ((takesRest takes).1.trans head) (runsBind (runsPure (runsBind
    (runsUpdateValue known ?_)))))
  have defined := holds p m takes
  -- Three updates of one record are the single one of `define`.
  have same : {({m with
      record := Function.update m.record v {m.record v with home := some p}
      holder := Function.update m.holder p (some ⟨v, (i.operand slot).nextUse⟩)} : Ledger).assign
        slot p with
      record := Function.update m.record v {m.record v with
        home := some p
        constant := if i.opcode = .loadI then some i.constant else none
        status := .dirty}} = m.define i slot v p := rfl
  simp only [Ledger.assign, Function.update_idem, Function.update_self] at same ⊢
  rw [same]
  unfold Ledger.settle at defined
  split
  · rename_i never
    rw [if_pos never] at defined
    exact runsRelease (defineSound (takesSound sound takes) (takesNew sound takes new) known i slot)
      known defined
  · rename_i again
    rw [if_neg again] at defined
    exact runsPure defined

theorem runsSnapshot (holds : finish () l) : Runs plan n Work.snapshot l finish stopped :=
  runsGet fun _ _ => runsRecord holds

theorem runsAudit (few : plan.usable ≤ 64) (sound : Sound plan n l l.free) (holds : finish () l) :
    Runs plan n (do Work.ofExcept ((← get).audit plan)) l finish stopped := by
  refine runsGet fun s reflects => ?_
  rw [auditOk reflects few sound.tables]
  exact runsPure holds

structure Wants (n : Nat) (i : Instr) (l : Ledger) : Prop where
  reads : ∀ slot ∈ i.opcode.reads,
    ∃ v, (i.operand slot).virtual = some v ∧ v.number < n ∧ l.Ready v
  writes : ∀ slot, i.opcode.writes = some slot →
    ∃ v, (i.operand slot).virtual = some v ∧ v.number < n ∧ l.record v = {} ∧
      ∀ slot ∈ i.opcode.reads, (i.operand slot).virtual ≠ some v

theorem wantsKnown (wants : Wants n i l) :
    ∀ slot ∈ i.opcode.reads, ∀ v, (i.operand slot).virtual = some v → v.number < n := by
  intro slot inside v virtual
  obtain ⟨w, virtual', known, -⟩ := wants.reads slot inside
  rw [virtual] at virtual'
  obtain rfl := Option.some.inj virtual'
  exact known

theorem wantsLast (wants : Wants n i l) : ∀ v ∈ i.lastReads, v.number < n := by
  intro v inside
  obtain ⟨op, last, virtual⟩ := List.mem_filterMap.mp inside
  obtain ⟨slot, read, rfl⟩ := List.mem_map.mp (List.mem_filter.mp last).1
  exact wantsKnown wants slot read v virtual

theorem startReading (sound : Sound plan n l l.free) : Reading plan n l.unpin :=
  ⟨unpinSound sound, fun q pinned => by
    rw [Ledger.unpin, RegisterSet.containsEmpty] at pinned
    contradiction⟩

theorem releasesSound (sound : Sound plan n l l.free) (vs : List VirtualReg) :
    Sound plan n (l.releases vs) (l.releases vs).free :=
  releasesInduct (fun l => Sound plan n l l.free) (fun _ v sound => releaseSound sound v) vs sound

theorem wantsNew (wants : Wants n i l) (sound : Sound plan n l l.free)
    (resolves : Resolves plan site i i.opcode.reads l.unpin m) {slot : Slot}
    (writes : i.opcode.writes = some slot) (virtual : (i.operand slot).virtual = some v) :
    v.number < n ∧ (m.releases i.lastReads).unpin.record v = {} := by
  obtain ⟨w, virtual', known, new, unread⟩ := wants.writes slot writes
  rw [virtual] at virtual'
  obtain rfl := Option.some.inj virtual'
  refine ⟨known, releasesInduct (fun l => l.record v = {}) (fun _ w new => releaseNew new w)
    i.lastReads ?_⟩
  exact resolvesNew (wantsKnown wants) resolves (startReading sound) unread new

theorem resolvedSound (wants : Wants n i l) (sound : Sound plan n l l.free)
    (resolves : Resolves plan site i i.opcode.reads l.unpin m) :
    Sound plan n (m.releases i.lastReads).unpin (m.releases i.lastReads).free :=
  unpinSound (releasesSound (resolvesReading (wantsKnown wants) resolves (startReading sound)).sound _)

theorem crossesSound (wants : Wants n i l) (sound : Sound plan n l l.free)
    (crosses : Crosses plan h i l k) : Sound plan n k k.free := by
  obtain ⟨reads, writes⟩ := crosses
  have resolved := resolvedSound wants sound reads
  cases writes with
  | nothing silent => exact resolved
  | @value slot v p m writes virtual takes =>
    obtain ⟨known, new⟩ := wantsNew wants sound reads writes virtual
    have defined := defineSound (takesSound resolved takes) (takesNew resolved takes new) known i slot
    unfold Ledger.settle
    split
    · exact releaseSound defined v
    · exact defined

theorem runsInstr (few : plan.usable ≤ 64) (sound : Sound plan n l l.free)
    (head : l.rest = (h, i) :: rest) (wants : Wants n i l)
    (holds : ∀ k, Crosses plan h i l k → finish () k)
    (stop : ∀ e m, Blocked plan n h i l e m → stopped e m) :
    Runs plan n (Work.allocateInstr plan h) l finish stopped := by
  refine runsGet fun s reflects => ?_
  have got : s.block.get (some h) = .ok i := Chain.getSpells (head ▸ reflects.spells)
  rw [got]
  have entered : l.unpin.rest = ((⟨h, i.line⟩ : Site).handle, i) :: rest := head
  refine runsBind (runsPure (runsBind (runsRecord (runsBind (runsUnpin (runsBind (runsReads
    (startReading sound) entered wants.reads (fun m resolves => ?_)
    fun e m unresolved => stop e m (.reading unresolved))))))))
  have reading := resolvesReading (wantsKnown wants) resolves (startReading sound)
  refine runsBind (runsReleases reading.sound (wantsLast wants) (runsBind (runsUnpin (runsBind ?_))))
  have finished : ∀ k, Defines plan ⟨h, i.line⟩ i (m.releases i.lastReads).unpin k →
      Runs plan n (do
        if plan.options.verbose then Work.snapshot
        Work.ofExcept ((← get).audit plan)) k finish stopped := by
    intro k defines
    have crosses : Crosses plan h i l k := ⟨resolves, defines⟩
    have audited : Runs plan n (do Work.ofExcept ((← get).audit plan)) k finish stopped :=
      runsAudit few (crossesSound wants sound crosses) (holds k crosses)
    split
    · exact runsBind (runsSnapshot audited)
    · exact audited
  cases writes : i.opcode.writes with
  | none => exact runsPure (finished _ (.nothing writes))
  | some slot =>
    obtain ⟨v, virtual, -⟩ := wants.writes slot writes
    obtain ⟨known, new⟩ := wantsNew wants sound resolves writes virtual
    obtain ⟨j, -, head'⟩ := resolvesHouses resolves (Instr.housesRefl i) entered
    have rest' := releasesInduct (fun l => l.rest = m.rest)
      (fun l v same => (releaseRest l v).1.trans same) i.lastReads rfl
    exact runsBind (runsWrite (resolvedSound wants sound resolves) rfl (rest'.trans head') virtual
      known new (fun p m' takes => runsPure (finished _ (.value writes virtual takes)))
      fun e k stops => stop e k (.writing resolves writes stops))

end
end Allocation
end Straightline
