import Straightline.Proofs.Allocation.Accounting
import Straightline.Proofs.Renaming.Reaching

/-! The next uses that an allocation keeps for its registers. Before every instruction the next use
noted for a register is where the value in it is read next. While the operands of an instruction are
resolved, the pinned registers have the next uses after the instruction already, and the others have
those from it on. So the victim that is farthest by the notes is farthest in the block. -/
namespace Straightline

namespace Renaming

def Env.Next (env : Env) (v : VirtualReg) (u : NextUse) : Prop :=
  ∃ r : Option SourceReg, env.ranges[r]? = some v ∧ env.nextUse r = u

section
variable {position : Nat} {below above env : Env} {i j : Instr} {es : List (Handle × Instr)}
  {steps : List Step} {slot : Slot} {v : VirtualReg} {u u' : NextUse}

theorem nextUnique (sound : env.Sound) (next : env.Next v u) (next' : env.Next v u') : u = u' := by
  obtain ⟨r, range, rfl⟩ := next
  obtain ⟨r', range', rfl⟩ := next'
  rw [sound.distinct r r' v range range']

theorem nextLate (renames : Renames position es steps) (next : (envAbove steps).Next v u) :
    ∃ x, u.position? = some x ∧ u.rank = x ∧ position ≤ x := by
  obtain ⟨r, range, rfl⟩ := next
  have marked := renamesMarked renames r
  cases use : (envAbove steps).nextUse r with
  | never =>
    rw [marked.mp use] at range
    contradiction
  | read x =>
    obtain ⟨q, late, -⟩ := (renamesNextUse renames r x.val).mp (by rw [use]; rfl)
    exact ⟨x.val, rfl, rfl, by omega⟩

theorem nextRead (pass : Passes position below i j above) (inRange : position < positionLimit)
    (read : slot ∈ j.opcode.reads) (virtual : (j.operand slot).virtual = some v) :
    above.Next v (.read ⟨position, inRange⟩) := by
  rw [pass.relabels.opcode] at read
  obtain ⟨w, virtual', range, -⟩ := pass.read slot read
  obtain rfl := Option.some.inj (virtual.symm.trans virtual')
  have listed : (i.operand slot).source ∈ i.readRegs .source :=
    Instr.memReadRegs.mpr ⟨slot, read, rfl⟩
  refine ⟨_, range, ?_⟩
  rw [Env.nextUseEq, pass.reads inRange, if_pos listed]
  rfl

theorem nextSame (pass : Passes position below i j above) (inRange : position < positionLimit)
    (unread : some v ∉ j.readRegs .virtual) (next : above.Next v u) : below.Next v u := by
  obtain ⟨r, range, rfl⟩ := next
  have elsewhere : r ∉ i.readRegs .source := by
    intro read
    obtain ⟨slot, inside, rfl⟩ := Instr.memReadRegs.mp read
    obtain ⟨w, virtual, range', -⟩ := pass.read slot inside
    obtain rfl := Option.some.inj (range'.symm.trans range)
    exact unread (Instr.memReadRegs.mpr ⟨slot, pass.relabels.opcode ▸ inside, virtual⟩)
  rcases pass.origin r v range with ⟨old, unwritten⟩ | ⟨read, -⟩
  · refine ⟨r, old, ?_⟩
    rw [Env.nextUseEq above, pass.reads inRange, if_neg elsewhere, if_neg unwritten, Env.nextUseEq]
  · exact absurd read elsewhere

theorem nextAfter (pass : Passes position (envAbove steps) i j above)
    (rest : Renames (position + 1) es steps)
    (used : slot ∈ j.opcode.reads ∨ j.opcode.writes = some slot)
    (virtual : (j.operand slot).virtual = some v) (again : (j.operand slot).nextUse ≠ .never) :
    (envAbove steps).Next v (j.operand slot).nextUse := by
  have marked := renamesMarked rest (i.operand slot).source
  rw [pass.relabels.opcode] at used
  rcases used with read | writes
  · obtain ⟨w, virtual', range, next⟩ := pass.read slot read
    obtain rfl := Option.some.inj (virtual.symm.trans virtual')
    split at next
    · exact absurd next again
    · rename_i unwritten
      rw [next] at again ⊢
      obtain ⟨w, old⟩ := Option.ne_none_iff_exists'.mp (marked.not.mp again)
      have kept := pass.kept _ w old unwritten
      obtain rfl := Option.some.inj (kept.symm.trans range)
      exact ⟨_, old, rfl⟩
  · obtain ⟨w, virtual', next, -, -, old | ⟨none, -⟩⟩ := pass.written slot writes
    · obtain rfl := Option.some.inj (virtual.symm.trans virtual')
      exact ⟨_, old, next.symm⟩
    · rw [next] at again
      exact absurd (marked.mpr none) again

end
end Renaming

namespace Allocation
open Renaming (Env Step Renames Flows Passes envAbove)

def Ledger.Tracks (l : Ledger) (env : Env) : Prop :=
  ∀ q v u, l.holder q = some ⟨v, u⟩ → env.Next v u

structure Scans (plan : Plan) (n : Nat) (above : Env) (i : Instr) (l : Ledger) : Prop where
  reading : Reading plan n l
  pinned : ∀ q v u, l.holder q = some ⟨v, u⟩ → l.pinned.contains q = true →
    ∃ slot ∈ i.opcode.reads, (i.operand slot).virtual = some v ∧ (i.operand slot).nextUse = u
  unpinned : ∀ q v u, l.holder q = some ⟨v, u⟩ → l.pinned.contains q = false → above.Next v u

section
variable {plan : Plan} {n position : Nat} {site : Site} {l m k : Ledger} {i : Instr}
  {slots : List Slot} {v w : VirtualReg} {p q : PhysicalReg} {u : NextUse} {o : Occupant}
  {h : Handle} {es : List (Handle × Instr)} {s : Step} {steps : List Step} {below above : Env}

theorem fetchedHolder (sound : Sound plan n l l.free) (fetches : Fetches plan site v u l p m)
    (slot : Slot) : (m.resolve slot p u).holder = Function.update l.holder p (some ⟨v, u⟩) := by
  cases fetches with
  | resident home =>
    obtain ⟨u', held⟩ := (sound.tables.home v p).mp home
    simp [Ledger.resolve, held]
  | brought away takes brings =>
    simp only [Ledger.resolve, bringsHolder brings, Function.update_self, Option.map_some,
      Function.update_idem]
    funext q
    by_cases here : q = p
    · simp [here]
    · rw [Function.update_of_ne here, Function.update_of_ne here, takesHolder takes here]

theorem startScans (sound : Sound plan n l l.free) (tracks : l.Tracks above) :
    Scans plan n above i l.unpin :=
  ⟨startReading sound, fun q v u held pinned => by
    rw [Ledger.unpin, RegisterSet.containsEmpty] at pinned
    contradiction, fun q v u held _ => tracks q v u held⟩

theorem fetchesScans {slot : Slot} (known : v.number < n) (inside : slot ∈ i.opcode.reads)
    (virtual : (i.operand slot).virtual = some v)
    (fetches : Fetches plan site v (i.operand slot).nextUse l p m) (scans : Scans plan n above i l) :
    Scans plan n above i (m.resolve slot p (i.operand slot).nextUse) := by
  have reading := fetchesReading scans.reading known fetches slot
  have holder := fetchedHolder scans.reading.sound fetches slot
  have pinned : ∀ q, (m.resolve slot p (i.operand slot).nextUse).pinned.contains q =
      (l.pinned.contains q || p == q) := by
    intro q
    rw [Ledger.resolve, RegisterSet.containsInsert, (fetchesRest fetches).2]
  refine ⟨reading, fun q w u held pins => ?_, fun q w u held free => ?_⟩
  · rw [holder] at held
    by_cases here : q = p
    · subst here
      rw [Function.update_self] at held
      cases held
      exact ⟨slot, inside, virtual, rfl⟩
    · rw [Function.update_of_ne here] at held
      rw [pinned, beq_false_of_ne (Ne.symm here), Bool.or_false] at pins
      exact scans.pinned q w u held pins
  · rw [pinned, Bool.or_eq_false_iff] at free
    have here : q ≠ p := fun same => by simp [same] at free
    rw [holder, Function.update_of_ne here] at held
    exact scans.unpinned q w u held free.1

theorem resolvesScans (known : ∀ slot ∈ slots, ∀ v, (i.operand slot).virtual = some v → v.number < n)
    (inside : slots ⊆ i.opcode.reads) (resolves : Resolves plan site i slots l m)
    (scans : Scans plan n above i l) : Scans plan n above i m := by
  induction resolves with
  | nil => exact scans
  | cons virtual fetches rest ih =>
    obtain ⟨first, others⟩ := List.cons_subset.mp inside
    exact ih (fun slot inside => known slot (List.mem_cons_of_mem _ inside)) others
      (fetchesScans (known _ List.mem_cons_self _ virtual) first virtual fetches scans)

theorem releaseHolder (sound : Sound plan n l l.free) (held : (l.release v).holder q = some o) :
    l.holder q = some o ∧ o.value ≠ v := by
  have apart : l.holder q = some o → o.value = v → (l.record v).home = some q := by
    intro held same
    exact (sound.tables.home v q).mpr ⟨o.nextUse, by rw [held, ← same]⟩
  unfold Ledger.release at held
  split at held
  · rename_i p home
    simp only at held
    by_cases here : q = p
    · simp [here] at held
    · rw [Function.update_of_ne here] at held
      refine ⟨held, fun same => here ?_⟩
      exact Option.some.inj ((apart held same).symm.trans home)
  · rename_i away
    refine ⟨held, fun same => ?_⟩
    rw [apart held same] at away
    contradiction

theorem releasesHolder {vs : List VirtualReg} (sound : Sound plan n l l.free)
    (held : (l.releases vs).holder q = some o) : l.holder q = some o ∧ o.value ∉ vs := by
  induction vs generalizing l with
  | nil => exact ⟨held, List.not_mem_nil⟩
  | cons v vs ih =>
    obtain ⟨held, later⟩ := ih (releaseSound sound v) held
    obtain ⟨held, other⟩ := releaseHolder sound held
    exact ⟨held, fun inside => (List.mem_cons.mp inside).elim other later⟩

theorem takenHolder (takes : Takes plan site l p m) (held : m.holder q = some o) :
    l.holder q = some o := by
  cases takes with
  | free => exact held
  | evicted full _ unpinned evicts =>
    by_cases here : q = p
    · subst here
      cases evicts <;> simp at held
    · cases evicts <;> simpa [Function.update_of_ne here] using held

theorem settledHolder {slot : Slot} (defined : Sound plan n (m.define i slot v p) m.free)
    (held : ((m.define i slot v p).settle v (i.operand slot).nextUse).holder q = some o) :
    m.holder q = some o ∨ q = p ∧ o = ⟨v, (i.operand slot).nextUse⟩ ∧ o.nextUse ≠ .never := by
  have before : (m.define i slot v p).holder q = some o → q ≠ p → m.holder q = some o := by
    intro held other
    simpa only [Ledger.define, Function.update_of_ne other] using held
  unfold Ledger.settle at held
  split at held
  · obtain ⟨held, other⟩ := releaseHolder defined held
    refine .inl (before held fun here => other ?_)
    simp only [Ledger.define, here, Function.update_self, Option.some.injEq] at held
    rw [← held]
  · rename_i again
    by_cases here : q = p
    · simp only [Ledger.define, here, Function.update_self, Option.some.injEq] at held
      subst held
      exact .inr ⟨here, rfl, again⟩
    · exact .inl (before held here)

theorem heldOnce (tables : Tables plan n l l.free) {u u' : NextUse} (held : l.holder p = some ⟨v, u⟩)
    (held' : l.holder q = some ⟨v, u'⟩) : p = q :=
  Option.some.inj (((tables.home v p).mpr ⟨u, held⟩).symm.trans ((tables.home v q).mpr ⟨u', held'⟩))

theorem releasedTracks {j : Instr} (pass : Passes position (envAbove steps) i j above)
    (inRange : position < positionLimit) (rest : Renames (position + 1) es steps)
    (scans : Scans plan n above j m)
    (present : ∀ v, some v ∈ j.readRegs .virtual →
      ∃ q u, m.pinned.contains q = true ∧ m.holder q = some ⟨v, u⟩)
    (held : (m.releases j.lastReads).holder q = some ⟨v, u⟩) :
    m.holder q = some ⟨v, u⟩ ∧ (envAbove steps).Next v u ∧ (some v ∈ j.readRegs .virtual →
      ∃ slot ∈ j.opcode.reads, (j.operand slot).virtual = some v ∧ (j.operand slot).nextUse = u) := by
  obtain ⟨held, kept⟩ := releasesHolder scans.reading.sound held
  by_cases read : some v ∈ j.readRegs .virtual
  · obtain ⟨q', u', pins, held'⟩ := present v read
    obtain rfl := heldOnce scans.reading.sound.tables held held'
    obtain ⟨slot, inside, virtual, rfl⟩ := scans.pinned q v u held pins
    have again : (j.operand slot).nextUse ≠ .never :=
      fun never => kept (memLastReads.mpr ⟨slot, inside, virtual, never⟩)
    exact ⟨held, Renaming.nextAfter pass rest (.inl inside) virtual again,
      fun _ => ⟨slot, inside, virtual, rfl⟩⟩
  · cases pins : m.pinned.contains q with
    | true =>
      obtain ⟨slot, inside, virtual, -⟩ := scans.pinned q v u held pins
      exact (read (Instr.memReadRegs.mpr ⟨slot, inside, virtual⟩)).elim
    | false =>
      exact ⟨held, Renaming.nextSame pass inRange read (scans.unpinned q v u held pins),
        fun inside => absurd inside read⟩

theorem definesTracks {j : Instr} (pass : Passes position (envAbove steps) i j above)
    (rest : Renames (position + 1) es steps) (sound : Sound plan n l l.free)
    (wants : ∀ v, j.writtenReg .virtual = some (some v) → v.number < n ∧ l.record v = {})
    (tracks : l.Tracks (envAbove steps)) (defines : Defines plan site j l k) :
    k.Tracks (envAbove steps) := by
  cases defines with
  | nothing => exact tracks
  | @value slot v p m writes virtual takes =>
    obtain ⟨known, new⟩ := wants v (by rw [Instr.writtenRegSome writes, Operand.reg, virtual])
    have defined := defineSound (takesSound sound takes) (takesNew sound takes new) known j slot
    intro q w u held
    rcases settledHolder defined held with old | ⟨-, same, again⟩
    · exact tracks q w u (takenHolder takes old)
    · cases same
      exact Renaming.nextAfter pass rest (.inr writes) virtual again

theorem resolvedTracks (renames : Renames position es (s :: steps))
    (stage : Stage plan n (s :: steps) l) (numbered : s.env.minted ≤ n) (tracks : l.Tracks s.env)
    (reads : Resolves plan ⟨s.handle, s.instr.line⟩ s.instr s.instr.opcode.reads l.unpin m) :
    (m.releases s.instr.lastReads).unpin.Tracks (envAbove steps) := by
  have wants := stageWants renames stage numbered
  have present := fun v => readPresent (v := v) wants stage.sound reads
  have scans := resolvesScans (wantsKnown wants) (List.Subset.refl _) reads
    (startScans stage.sound tracks)
  cases renames with
  | cons inRange pass rest =>
    exact fun q v u held => (releasedTracks pass inRange rest scans present held).2.1

theorem crossesTracks (renames : Renames position es (s :: steps))
    (stage : Stage plan n (s :: steps) l) (numbered : s.env.minted ≤ n) (tracks : l.Tracks s.env)
    (crosses : Crosses plan s.handle s.instr l k) : k.Tracks (envAbove steps) := by
  have wants := stageWants renames stage numbered
  obtain ⟨reads, writes⟩ := crosses
  have tracked := resolvedTracks renames stage numbered tracks reads
  have sound := resolvedSound wants stage.sound reads
  have new := fun v => writtenNew (v := v) wants stage.sound reads
  cases renames with
  | cons inRange pass rest => exact definesTracks pass rest sound new tracked writes

theorem farthestLeads (l : Ledger) {ps : List PhysicalReg} (inside : p ∈ ps) :
    (l.nextUse p).rank ≤ (l.farthest ps).rank := by
  have leads : ∀ (us : List NextUse) (x u : NextUse), u = x ∨ u ∈ us →
      u.rank ≤ (us.foldl (fun a b => if a.rank < b.rank then b else a) x).rank := by
    intro us
    induction us with
    | nil => simp
    | cons y ys ih =>
      intro x u listed
      rw [List.foldl_cons]
      split
      · rename_i less
        rcases listed with rfl | listed
        · exact Nat.le_trans (Nat.le_of_lt less) (ih y y (.inl rfl))
        · exact ih y u (List.mem_cons.mp listed)
      · rename_i more
        rcases listed with rfl | listed
        · exact ih u u (.inl rfl)
        · rcases List.mem_cons.mp listed with rfl | listed
          · exact Nat.le_trans (Nat.le_of_not_lt more) (ih x x (.inl rfl))
          · exact ih x u (.inr listed)
  exact leads _ _ _ (.inr (List.mem_map_of_mem inside))

theorem chosenFarthest (exact : plan.options.window = 0) (held : l.holder p = some o)
    (chosen : Victim.best ((l.contenders plan).filterMap l.victim) = l.victim p)
    (usable : q.number < plan.usable) (free : l.pinned.contains q = false) {o' : Occupant}
    (held' : l.holder q = some o') : o'.nextUse.rank ≤ o.nextUse.rank := by
  have victim : l.victim p = some ⟨p, o.value, (l.record o.value).cost, o.nextUse⟩ := by
    rw [Ledger.victim, held, Option.map_some]
  obtain ⟨p', contends, same⟩ := List.mem_filterMap.mp (bestMem (chosen.trans victim))
  obtain rfl : p = p' := (victimHeld same).1
  have within := (List.mem_filter.mp contends).2
  have candidate : q ∈ l.candidates plan :=
    List.mem_filter.mpr ⟨Reg.memBelow.mpr usable, by simp [free]⟩
  have leads := farthestLeads l candidate
  rw [NextUse.within, exact, decide_eq_true_eq] at within
  simp only [Ledger.nextUse, held, held'] at within leads
  exact Nat.le_trans leads within

end
end Allocation
end Straightline
