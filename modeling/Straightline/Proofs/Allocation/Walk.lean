import Straightline.Proofs.Allocation.Passage
import Straightline.Proofs.Renaming.Ranges

/-! The walk of an allocation over a renamed block. Before every instruction the values in registers
are those of open ranges, the value of every open range can be had, and nothing is known yet of a
value that is still to be written. -/
namespace Straightline.Allocation
open Renaming (Env Step Renames Flows envAbove)

inductive Walks (plan : Plan) : List Step → Ledger → Ledger → Prop where
  | nil (l : Ledger) : Walks plan [] l l
  | cons {s : Step} {steps : List Step} {l k m : Ledger}
      (crosses : Crosses plan s.handle s.instr l k) (rest : Walks plan steps k.advance m) :
      Walks plan (s :: steps) l m

inductive Fails (plan : Plan) (n : Nat) (e : Stop) : List Step → Ledger → Ledger → Prop where
  | here {s : Step} {steps : List Step} {l m : Ledger}
      (blocked : Blocked plan n s.handle s.instr l e m) : Fails plan n e (s :: steps) l m
  | later {s : Step} {steps : List Step} {l k m : Ledger}
      (crosses : Crosses plan s.handle s.instr l k) (rest : Fails plan n e steps k.advance m) :
      Fails plan n e (s :: steps) l m

structure Stage (plan : Plan) (n : Nat) (steps : List Step) (l : Ledger) : Prop where
  sound : Sound plan n l l.free
  rest : l.rest = steps.map fun s => (s.handle, s.instr)
  resident : ∀ v, (l.record v).home ≠ none → (envAbove steps).Live v
  ready : ∀ v, (envAbove steps).Live v → l.Ready v
  fresh : ∀ v, some v ∈ writtenRegs .virtual (steps.map Step.instr) → l.record v = {}

section
variable {plan : Plan} {n position : Nat} {site : Site} {l m k : Ledger} {i : Instr}
  {slots : List Slot} {rest : List (Handle × Instr)} {v w : VirtualReg} {p : PhysicalReg}
  {u : NextUse} {h : Handle} {es : List (Handle × Instr)} {s : Step} {steps : List Step}

theorem fetchesHome (fetches : Fetches plan site v u l p m) (home : (m.record w).home ≠ none) :
    (l.record w).home ≠ none ∨ w = v := by
  cases fetches with
  | resident => exact .inl home
  | brought away takes brings =>
    by_cases same : w = v
    · exact .inr same
    · rw [bringsRecord brings same] at home
      rcases takesRecord takes w with kept | ⟨-, none, -⟩
      · rw [kept] at home
        exact .inl home
      · exact absurd none home

theorem resolvesHome (resolves : Resolves plan site i slots l m)
    (home : (m.record w).home ≠ none) :
    (l.record w).home ≠ none ∨ ∃ slot ∈ slots, (i.operand slot).virtual = some w := by
  induction resolves with
  | nil => exact .inl home
  | cons virtual fetches rest ih =>
    rcases ih home with earlier | ⟨slot, inside, found⟩
    · rcases fetchesHome fetches earlier with before | rfl
      · exact .inl before
      · exact .inr ⟨_, List.mem_cons_self, virtual⟩
    · exact .inr ⟨slot, List.mem_cons_of_mem _ inside, found⟩

theorem resolvesReady (resolves : Resolves plan site i slots l m) (ready : l.Ready w) :
    m.Ready w := by
  induction resolves with
  | nil => exact ready
  | cons virtual fetches rest ih =>
    have fetched := fetchesReady fetches ready
    exact ih fetched

theorem releaseHome (home : ((l.release v).record w).home ≠ none) :
    w ≠ v ∧ (l.record w).home ≠ none := by
  by_cases same : w = v
  · subst same
    unfold Ledger.release at home
    split at home
    · simp at home
    · contradiction
  · rw [releaseOther l same] at home
    exact ⟨same, home⟩

theorem releasesHome {vs : List VirtualReg} (home : ((l.releases vs).record w).home ≠ none) :
    w ∉ vs ∧ (l.record w).home ≠ none := by
  induction vs generalizing l with
  | nil => exact ⟨List.not_mem_nil, home⟩
  | cons v vs ih =>
    obtain ⟨later, earlier⟩ := ih home
    obtain ⟨other, before⟩ := releaseHome earlier
    exact ⟨fun inside => (List.mem_cons.mp inside).elim other later, before⟩

theorem releasesOther {vs : List VirtualReg} (outside : w ∉ vs) :
    (l.releases vs).record w = l.record w := by
  induction vs generalizing l with
  | nil => rfl
  | cons v vs ih =>
    have other : w ≠ v := fun same => outside (same ▸ List.mem_cons_self)
    exact (ih fun inside => outside (List.mem_cons_of_mem _ inside)).trans (releaseOther l other)

theorem memLastReads : v ∈ i.lastReads ↔ ∃ slot ∈ i.opcode.reads,
    (i.operand slot).virtual = some v ∧ (i.operand slot).nextUse = .never := by
  simp only [Instr.lastReads, Instr.readOperands, List.mem_filterMap, List.mem_filter, List.mem_map,
    decide_eq_true_eq]
  constructor
  · rintro ⟨op, ⟨⟨slot, inside, rfl⟩, last⟩, virtual⟩
    exact ⟨slot, inside, virtual, last⟩
  · rintro ⟨slot, inside, virtual, last⟩
    exact ⟨_, ⟨⟨slot, inside, rfl⟩, last⟩, virtual⟩

theorem settleHome {u : NextUse} (home : ((l.settle v u).record w).home ≠ none) :
    (l.record w).home ≠ none ∧ (w = v → u ≠ .never) := by
  unfold Ledger.settle at home
  split at home
  · obtain ⟨other, before⟩ := releaseHome home
    exact ⟨before, fun same => absurd same other⟩
  · rename_i again
    exact ⟨home, fun _ => again⟩

theorem settleOther (u : NextUse) (other : w ≠ v) : (l.settle v u).record w = l.record w := by
  unfold Ledger.settle
  split
  · exact releaseOther l other
  · rfl

theorem lastReadDead {below above : Env} (flows : Flows below above i) (last : v ∈ i.lastReads) :
    ¬ below.Live v := by
  obtain ⟨slot, inside, virtual, never⟩ := memLastReads.mp last
  exact (Renaming.flowsRead flows inside virtual).2.mp never

theorem resolvedResident {below above : Env} (flows : Flows below above i)
    (resident : ∀ v, (l.record v).home ≠ none → above.Live v)
    (resolves : Resolves plan site i i.opcode.reads l.unpin m)
    (home : ((m.releases i.lastReads).unpin.record w).home ≠ none) :
    above.Live w ∧ below.Live w := by
  obtain ⟨again, home⟩ := releasesHome home
  have live : above.Live w := by
    rcases resolvesHome resolves home with before | ⟨slot, inside, virtual⟩
    · exact resident w before
    · exact (Renaming.flowsRead flows inside virtual).1
  refine ⟨live, ?_⟩
  -- A range that closes at this instruction is read by it for the last time, and released.
  by_contra dead
  rcases flows.origin w live with old | ⟨read, -⟩
  · exact dead old
  · obtain ⟨slot, inside, virtual⟩ := Instr.memReadRegs.mp read
    have never := (Renaming.flowsRead flows inside virtual).2.mpr dead
    exact again (memLastReads.mpr ⟨slot, inside, virtual, never⟩)

theorem resolvedReady {below above : Env} (flows : Flows below above i) (ready : l.Ready w)
    (resolves : Resolves plan site i i.opcode.reads l.unpin m) (live : below.Live w) :
    (m.releases i.lastReads).unpin.Ready w := by
  have again : w ∉ i.lastReads := fun last => lastReadDead flows last live
  have same : (m.releases i.lastReads).unpin.record w = m.record w := releasesOther again
  rw [Ledger.Ready, same]
  exact resolvesReady (l := l.unpin) resolves ready

theorem definesResident {below above : Env} (flows : Flows below above i)
    (resident : ∀ v, (l.record v).home ≠ none → below.Live v)
    (defines : Defines plan site i l k) (home : (k.record w).home ≠ none) : below.Live w := by
  cases defines with
  | nothing => exact resident w home
  | @value slot v p m writes virtual takes =>
    obtain ⟨home, again⟩ := settleHome home
    by_cases same : w = v
    · subst same
      obtain ⟨-, dead, -⟩ := Renaming.flowsWritten flows writes virtual
      by_contra unread
      exact again rfl (dead.mpr unread)
    · refine resident w fun none => ?_
      simp only [Ledger.define, Function.update_of_ne same] at home
      exact home (takesAway takes none)

theorem definesReady {below above : Env} (flows : Flows below above i)
    (ready : above.Live w → l.Ready w) (defines : Defines plan site i l k) (live : below.Live w) :
    k.Ready w := by
  cases defines with
  | nothing silent =>
    rcases flows.kept w live with old | written
    · exact ready old
    · rw [Instr.writtenRegNone silent] at written
      contradiction
  | @value slot v p m writes virtual takes =>
    obtain ⟨-, dead, -⟩ := Renaming.flowsWritten flows writes virtual
    by_cases same : w = v
    · subst same
      have again : (i.operand slot).nextUse ≠ .never := fun never => dead.mp never live
      simp [Ledger.Ready, Ledger.settle, again, Ledger.define]
    · rcases flows.kept w live with old | written
      · rw [Ledger.Ready, settleOther _ same]
        simp only [Ledger.define, Function.update_of_ne same]
        rcases takesRecord takes w with kept | ⟨-, -, clean, -⟩
        · rw [kept]
          exact ready old
        · simp [clean]
      · rw [Instr.writtenRegSome writes, Operand.reg, virtual, Option.some.injEq, Option.some.injEq]
          at written
        exact absurd written.symm same

theorem definesFresh (sound : Sound plan n l l.free) (new : l.record w = {})
    (other : i.writtenReg .virtual ≠ some (some w)) (defines : Defines plan site i l k) :
    k.record w = {} := by
  cases defines with
  | nothing => exact new
  | @value slot v p m writes virtual takes =>
    have same : w ≠ v := fun same => other (by
      rw [Instr.writtenRegSome writes, Operand.reg, virtual, same])
    rw [settleOther _ same]
    simp only [Ledger.define, Function.update_of_ne same]
    exact takesNew sound takes new

theorem settleRest (l : Ledger) (v : VirtualReg) (u : NextUse) :
    (l.settle v u).rest = l.rest ∧ (l.settle v u).done = l.done := by
  unfold Ledger.settle
  split
  · exact releaseRest l v
  · exact ⟨rfl, rfl⟩

theorem releasesRest (l : Ledger) (vs : List VirtualReg) :
    (l.releases vs).rest = l.rest ∧ (l.releases vs).done = l.done :=
  releasesInduct (fun k => k.rest = l.rest ∧ k.done = l.done)
    (fun k v same => ⟨(releaseRest k v).1.trans same.1, (releaseRest k v).2.trans same.2⟩) vs ⟨rfl, rfl⟩

theorem crossesHouses (crosses : Crosses plan h i l k) (head : l.rest = (h, i) :: rest) :
    ∃ j, i.Houses j ∧ k.rest = (h, j) :: rest := by
  obtain ⟨reads, writes⟩ := crosses
  obtain ⟨j, houses, resolved⟩ := resolvesHouses reads (Instr.housesRefl i) head
  have released := (releasesRest _ i.lastReads).1.trans resolved
  cases writes with
  | nothing => exact ⟨j, houses, released⟩
  | @value slot v p m writes virtual takes =>
    refine ⟨_, Instr.housesSet houses slot p, (settleRest _ v _).1.trans ?_⟩
    have taken := (takesRest takes).1.trans released
    simp [Ledger.define, Ledger.assign, taken]

theorem stageWants (renames : Renames position es (s :: steps)) (stage : Stage plan n (s :: steps) l)
    (numbered : s.env.minted ≤ n) : Wants n s.instr l := by
  cases renames with
  | @cons _ h i j env es _ inRange pass rest =>
    have flows := Renaming.renamesFlows pass rest
    refine ⟨fun slot inside => ?_, fun slot writes => ?_⟩
    · obtain ⟨v, virtual, live, -⟩ := flows.read slot inside
      obtain ⟨r, range⟩ := live
      have bound := pass.sound.bounded r v range
      exact ⟨v, virtual, Nat.lt_of_lt_of_le bound numbered, stage.ready v ⟨r, range⟩⟩
    · obtain ⟨v, virtual, dead, -⟩ := flows.written slot writes
      obtain ⟨v', virtual', -, bound, -⟩ := pass.written slot (pass.relabels.opcode ▸ writes)
      rw [virtual] at virtual'
      obtain rfl := Option.some.inj virtual'
      refine ⟨v, virtual, Nat.lt_of_lt_of_le bound numbered, stage.fresh v ?_, fun slot' inside => ?_⟩
      · rw [List.map_cons, writtenRegsCons]
        refine List.mem_append_left _ ?_
        simp [Instr.writtenRegSome writes, Operand.reg, virtual]
      · exact fun read => dead (Renaming.flowsRead flows inside read).1

theorem crossesStage (renames : Renames position es (s :: steps))
    (stage : Stage plan n (s :: steps) l) (numbered : s.env.minted ≤ n)
    (crosses : Crosses plan s.handle s.instr l k) : Stage plan n steps k.advance := by
  have wants := stageWants renames stage numbered
  have apart := fun v => Renaming.renamesApart (v := v) renames
  obtain ⟨j, houses, rest⟩ := crossesHouses crosses stage.rest
  have sound := crossesSound wants stage.sound crosses
  obtain ⟨reads, writes⟩ := crosses
  cases renames with
  | @cons _ h i j env es _ inRange pass later =>
    have flows := Renaming.renamesFlows pass later
    refine ⟨advanceSound sound, by simp [Ledger.advance, rest], ?_, ?_, ?_⟩
    · intro v home
      exact definesResident flows (fun w home => (resolvedResident flows stage.resident reads home).2)
        writes home
    · intro v live
      have ready : k.Ready v := definesReady flows
        (fun old => resolvedReady flows (stage.ready v old) reads live) writes live
      exact ready
    · intro v inside
      have inside' : some v ∈ writtenRegs .virtual (j :: steps.map Step.instr) := by
        rw [writtenRegsCons]
        exact List.mem_append_right _ inside
      -- A value written later is neither read nor written here, so nothing becomes known of it.
      have unread : ∀ slot ∈ j.opcode.reads, (j.operand slot).virtual ≠ some v :=
        fun slot read virtual => (apart v inside).1 (Instr.memReadRegs.mpr ⟨slot, read, virtual⟩)
      have new := resolvesNew (wantsKnown wants) reads (startReading stage.sound) unread
        (stage.fresh v inside')
      have fresh : k.record v = {} := definesFresh (resolvedSound wants stage.sound reads)
        (releasesInduct (fun l => l.record v = {}) (fun _ w new => releaseNew new w) _ new)
        (apart v inside).2 writes
      exact fresh

theorem reflectsAdvance {state : State} (reflects : Reflects plan n state l) :
    Reflects plan n state l.advance := by
  have spells := reflects.spells
  rw [← List.take_append_drop 1 l.rest, ← List.append_assoc] at spells
  exact {reflects with spells}

theorem runsWalk (few : plan.usable ≤ 64) (renames : Renames position es steps)
    (stage : Stage plan n steps l) (numbered : (envAbove steps).minted ≤ n) :
    Runs plan n ((steps.map Step.handle).forM (Work.allocateInstr plan)) l
      (fun _ m => Walks plan steps l m ∧ Stage plan n [] m) fun e m => Fails plan n e steps l m := by
  induction renames generalizing l with
  | nil => exact runsPure ⟨.nil l, stage⟩
  | @cons position h i j env es steps inRange pass rest ih =>
    have renames := Renames.cons (h := h) inRange pass rest
    have wants := stageWants renames stage numbered
    have fewer := pass.minted.1
    rw [List.map_cons, List.forM_eq_forM, List.forM_cons]
    -- `Stage` goes over each crossing; the instructions below it are covered by the induction.
    refine runsBind (runsInstr few stage.sound stage.rest wants (fun k crosses => ?_)
      fun e m blocked => .here blocked)
    have next := ih (crossesStage renames stage numbered crosses) (Nat.le_trans fewer numbered)
    refine runsMono (fun state reflects => next state (reflectsAdvance reflects)) (fun _ m walked => ?_)
      fun e m fails => .later crosses fails
    exact ⟨.cons crosses walked.1, walked.2⟩

end
end Straightline.Allocation
