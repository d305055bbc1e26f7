import Mathlib.Combinatorics.Enumerative.DoubleCounting
import Straightline.Proofs.Allocation.Reuse

/-! Taking the register whose value is read farthest ahead leaves the fewest values to bring back.
Every interval begun so far has been evicted once, or was left alone: then it has stopped or its value
is waiting in a register. Whatever intervals could have been kept instead, of those that stop before
any given position no more have begun than were left alone. An eviction of the farthest value keeps
that: before its next use nothing changes, and after it no other value waits, so that the registers
have only to outnumber the intervals that cross the instruction. -/
namespace Straightline.Allocation
open Renaming (Env Step Renames Passes envAbove)

def Ledger.waiting (l : Ledger) (apart : List (Option VirtualReg)) (t : Nat) : Finset PhysicalReg :=
  (Reg.below 64).toFinset.filter fun q =>
    ∃ o ∈ l.holder q, some o.value ∉ apart ∧ t ≤ o.nextUse.rank

/-- Of `total` intervals begun, those left alone that stop before `t` are no fewer than the intervals
of `kept` that do, for any `t` from `since` on. -/
def Leads (kept : Finset Reuse) (total since : Nat) (apart : List (Option VirtualReg)) (l : Ledger) :
    Prop :=
  ∀ t, since ≤ t →
    (kept.filter fun x => x.stop < t).card + l.stats.evictions + (l.waiting apart t).card ≤ total

section
variable {plan : Plan} {n position total total' since : Nat} {site : Site} {l m k : Ledger}
  {i j : Instr} {slots : List Slot} {v w : VirtualReg} {p q : PhysicalReg} {u : NextUse} {h : Handle}
  {es : List (Handle × Instr)} {s : Step} {steps : List Step} {below above : Env}
  {all kept kept' fresh : Finset Reuse} {apart apart' : List (Option VirtualReg)}

theorem memWaiting {t : Nat} : q ∈ l.waiting apart t ↔
    ∃ v u, l.holder q = some ⟨v, u⟩ ∧ some v ∉ apart ∧ t ≤ u.rank := by
  have listed : q ∈ Reg.below 64 := Reg.memBelow.mpr q.numberLt
  simp only [Ledger.waiting, Finset.mem_filter, List.mem_toFinset, listed, true_and, Option.mem_def]
  constructor
  · intro found
    obtain ⟨o, held, rest⟩ := found
    exact ⟨o.value, o.nextUse, held, rest⟩
  · intro found
    obtain ⟨v, u, held, rest⟩ := found
    exact ⟨_, held, rest⟩

theorem waitingGrow {t : Nat} (tables : Tables plan n m m.free)
    (either : ∀ q v u, m.holder q = some ⟨v, u⟩ → some v ∉ apart' →
      l.holder q = some ⟨v, u⟩ ∧ some v ∉ apart ∨ ∃ x ∈ fresh, x.value = v ∧ x.stop = u.rank) :
    (m.waiting apart' t).card ≤
      (l.waiting apart t).card + (fresh.filter fun x => t ≤ x.stop).card := by
  let new := (m.waiting apart' t).filter fun q => q ∉ l.waiting apart t
  have few : new.card ≤ (fresh.filter fun x => t ≤ x.stop).card := by
    refine Finset.card_le_card_of_forall_subsingleton (fun q x => ∃ u, m.holder q = some ⟨x.value, u⟩)
      (fun q inside => ?_) fun x _ q inside q' inside' => ?_
    · obtain ⟨waits, unwaiting⟩ := Finset.mem_filter.mp inside
      obtain ⟨v, u, held, other, late⟩ := memWaiting.mp waits
      rcases either q v u held other with ⟨old, other⟩ | ⟨x, listed, rfl, stop⟩
      · exact absurd (memWaiting.mpr ⟨v, u, old, other, late⟩) unwaiting
      · exact ⟨x, Finset.mem_filter.mpr ⟨listed, stop ▸ late⟩, u, held⟩
    · obtain ⟨-, u, held⟩ := inside
      obtain ⟨-, u', held'⟩ := inside'
      exact heldOnce tables held held'
  have all : m.waiting apart' t ⊆ l.waiting apart t ∪ new := by
    intro q inside
    by_cases old : q ∈ l.waiting apart t
    · exact Finset.mem_union_left _ old
    · exact Finset.mem_union_right _ (Finset.mem_filter.mpr ⟨inside, old⟩)
  have count := Nat.le_trans (Finset.card_le_card all) (Finset.card_union_le _ _)
  omega

theorem leadsGrow (fresh : Finset Reuse) (leads : Leads kept total since apart l)
    (tables : Tables plan n m m.free) (more : kept' ⊆ kept ∪ fresh)
    (counted : total + fresh.card ≤ total') (evictions : m.stats.evictions = l.stats.evictions)
    (either : ∀ q v u, m.holder q = some ⟨v, u⟩ → some v ∉ apart' →
      l.holder q = some ⟨v, u⟩ ∧ some v ∉ apart ∨ ∃ x ∈ fresh, x.value = v ∧ x.stop = u.rank) :
    Leads kept' total' since apart' m := by
  intro t late
  have before := leads t late
  have grown := waitingGrow (t := t) tables either
  have stopped : (kept'.filter fun x => x.stop < t).card ≤
      (kept.filter fun x => x.stop < t).card + (fresh.filter fun x => x.stop < t).card := by
    refine Nat.le_trans (Finset.card_le_card (Finset.filter_subset_filter _ more)) ?_
    rw [Finset.filter_union]
    exact Finset.card_union_le _ _
  have split := Finset.card_filter_add_card_filter_not (s := fresh) fun x => x.stop < t
  simp only [Nat.not_lt] at split
  omega

theorem leadsSame (leads : Leads kept total since apart l) (tables : Tables plan n m m.free)
    (evictions : m.stats.evictions = l.stats.evictions)
    (held : ∀ q v u, m.holder q = some ⟨v, u⟩ → some v ∉ apart' →
      l.holder q = some ⟨v, u⟩ ∧ some v ∉ apart) : Leads kept total since apart' m :=
  leadsGrow ∅ leads tables (by simp) (by simp) evictions
    fun q v u found other => .inl (held q v u found other)

theorem leadsEvict (leads : Leads kept total since apart l) (held : l.holder p = some ⟨v, u⟩)
    (counted : some v ∉ apart)
    (farthest : ∀ q w u', l.holder q = some ⟨w, u'⟩ → some w ∉ apart → u'.rank ≤ u.rank)
    (room : (kept.filter fun x => since ≤ x.stop).card + 1 ≤ (l.waiting apart since).card)
    (holder : m.holder = Function.update l.holder p none)
    (evictions : m.stats.evictions = l.stats.evictions + 1) : Leads kept total since apart m := by
  have others : ∀ t, m.waiting apart t ⊆ (l.waiting apart t).erase p := by
    intro t q inside
    obtain ⟨w, u', found, other, after⟩ := memWaiting.mp inside
    rw [holder] at found
    by_cases here : q = p
    · simp [here] at found
    · rw [Function.update_of_ne here] at found
      exact Finset.mem_erase.mpr ⟨here, memWaiting.mpr ⟨w, u', found, other, after⟩⟩
  intro t later
  rw [evictions]
  rcases Nat.lt_or_ge u.rank t with beyond | reached
  · -- Nothing waits beyond the farthest next use.
    have none : m.waiting apart t = ∅ := by
      refine Finset.eq_empty_of_forall_notMem fun q inside => ?_
      obtain ⟨w, u', found, other, after⟩ :=
        memWaiting.mp (Finset.mem_of_mem_erase (others t inside))
      have bound := farthest q w u' found other
      omega
    have start := leads since (Nat.le_refl _)
    have stopped : (kept.filter fun x => x.stop < t).card ≤
        (kept.filter fun x => x.stop < since).card + (kept.filter fun x => since ≤ x.stop).card := by
      refine Nat.le_trans (Finset.card_le_card fun x inside => ?_) (Finset.card_union_le _ _)
      obtain ⟨listed, -⟩ := Finset.mem_filter.mp inside
      rw [Finset.mem_union, Finset.mem_filter, Finset.mem_filter]
      rcases Nat.lt_or_ge x.stop since with early | late
      · exact .inl ⟨listed, early⟩
      · exact .inr ⟨listed, late⟩
    rw [none, Finset.card_empty]
    omega
  · have member : p ∈ l.waiting apart t := memWaiting.mpr ⟨v, u, held, counted, reached⟩
    have fewer := Finset.card_le_card (others t)
    rw [Finset.card_erase_of_mem member] at fewer
    have some := Finset.card_pos.mpr ⟨p, member⟩
    have before := leads t later
    omega

theorem takesLeads (exact : plan.options.window = 0) (tables : Tables plan n l l.free)
    (takes : Takes plan site l p m)
    (far : ∀ q v u, l.holder q = some ⟨v, u⟩ → some v ∉ apart →
      since ≤ u.rank ∧ l.pinned.contains q = false)
    (near : ∀ q v u, l.holder q = some ⟨v, u⟩ → l.pinned.contains q = false → some v ∈ apart →
      u.rank < since)
    (room : l.free = [] →
      (kept.filter fun x => since ≤ x.stop).card + 1 ≤ (l.waiting apart since).card)
    (leads : Leads kept total since apart l) : Leads kept total since apart m := by
  cases takes with
  | free => exact leads
  | @evicted o _ full held unpinned evicts chosen =>
    obtain ⟨v, u⟩ := o
    have farthest : ∀ q w u', l.holder q = some ⟨w, u'⟩ → some w ∉ apart → u'.rank ≤ u.rank :=
      fun q w u' found other => chosenFarthest exact held chosen (tables.held q _ found).1
        (far q w u' found other).2 found
    have counted : some v ∉ apart := by
      intro read
      have soon := near p v u held unpinned read
      obtain ⟨q, inside⟩ := Finset.card_pos.mp (Nat.lt_of_lt_of_le (Nat.succ_pos _) (room full))
      obtain ⟨w, u', found, other, after⟩ := memWaiting.mp inside
      have bound := farthest q w u' found other
      omega
    refine leadsEvict leads held counted farthest (room full) ?_ ?_
    · cases evicts <;> rfl
    · cases evicts <;> rfl

theorem fullWaiting (few : plan.usable ≤ 64) (tables : Tables plan n l l.free) (full : l.free = [])
    (far : ∀ q v u, l.holder q = some ⟨v, u⟩ → some v ∉ apart → since ≤ u.rank)
    {rs : Finset (Option VirtualReg)}
    (within : ∀ q v u, l.holder q = some ⟨v, u⟩ → some v ∈ apart → some v ∈ rs) :
    plan.usable ≤ (l.waiting apart since).card + rs.card := by
  have held : ∀ q ∈ Reg.below plan.usable, ∃ v u, l.holder q = some ⟨v, u⟩ := by
    intro q inside
    cases holder : l.holder q with
    | some o => exact ⟨o.value, o.nextUse, rfl⟩
    | none =>
      have spare := (tables.empty q).mpr ⟨Reg.memBelow.mp inside, holder⟩
      rw [full] at spare
      contradiction
  let reading := (Reg.below plan.usable).toFinset.filter fun q => q ∉ l.waiting apart since
  have few' : reading.card ≤ rs.card := by
    refine Finset.card_le_card_of_forall_subsingleton (fun q r => ∃ v u, l.holder q = some ⟨v, u⟩ ∧
      some v = r) (fun q inside => ?_) fun r _ q inside q' inside' => ?_
    · obtain ⟨listed, unwaiting⟩ := Finset.mem_filter.mp inside
      obtain ⟨v, u, found⟩ := held q (List.mem_toFinset.mp listed)
      refine ⟨some v, within q v u found ?_, v, u, found, rfl⟩
      by_contra other
      exact unwaiting (memWaiting.mpr ⟨v, u, found, other, far q v u found other⟩)
    · obtain ⟨-, v, u, found, rfl⟩ := inside
      obtain ⟨-, v', u', found', same⟩ := inside'
      obtain rfl := Option.some.inj same
      exact heldOnce tables found found'
  have all : (Reg.below plan.usable).toFinset ⊆ l.waiting apart since ∪ reading := by
    intro q inside
    by_cases waits : q ∈ l.waiting apart since
    · exact Finset.mem_union_left _ waits
    · exact Finset.mem_union_right _ (Finset.mem_filter.mpr ⟨inside, waits⟩)
  have count := Nat.le_trans (Finset.card_le_card all) (Finset.card_union_le _ _)
  rw [List.toFinset_card_of_nodup (Reg.belowNodup _), Reg.belowLength few] at count
  omega

theorem scansFar (pass : Passes position (envAbove steps) i j above)
    (inRange : position < positionLimit) (rest : Renames (position + 1) es steps)
    (scans : Scans plan n above j l) (held : l.holder q = some ⟨w, u⟩)
    (unread : some w ∉ j.readRegs .virtual) :
    position + 1 ≤ u.rank ∧ l.pinned.contains q = false := by
  cases pins : l.pinned.contains q with
  | true =>
    obtain ⟨slot, inside, virtual, -⟩ := scans.pinned q w u held pins
    exact (unread (Instr.memReadRegs.mpr ⟨slot, inside, virtual⟩)).elim
  | false =>
    have next := Renaming.nextSame pass inRange unread (scans.unpinned q w u held pins)
    obtain ⟨x, -, rank, late⟩ := Renaming.nextLate rest next
    exact ⟨by omega, rfl⟩

theorem scansNear (pass : Passes position below i j above) (inRange : position < positionLimit)
    (scans : Scans plan n above j l) (held : l.holder q = some ⟨w, u⟩)
    (unpinned : l.pinned.contains q = false) (read : some w ∈ j.readRegs .virtual) :
    u.rank < position + 1 := by
  obtain ⟨slot, inside, virtual⟩ := Instr.memReadRegs.mp read
  have now := Renaming.nextRead pass inRange inside virtual
  rw [Renaming.nextUnique pass.sound (scans.unpinned q w u held unpinned) now]
  exact Nat.lt_succ_self position

theorem scansRoom (few : plan.usable ≤ 64) (pass : Passes position (envAbove steps) i j above)
    (inRange : position < positionLimit) (rest : Renames (position + 1) es steps)
    (holds : KeptAt plan.usable kept position j) (scans : Scans plan n above j l)
    (read : some v ∈ j.readRegs .virtual) (away : (l.record v).home = none) (full : l.free = []) :
    ((kept.filter fun x => x.start < position).filter fun x => position + 1 ≤ x.stop).card + 1 ≤
      (l.waiting (j.readRegs .virtual) (position + 1)).card := by
  have tables := scans.reading.sound.tables
  -- The value that is wanted is in no register, so one more of them holds something for later.
  have others : ∀ q w u, l.holder q = some ⟨w, u⟩ → some w ∈ j.readRegs .virtual →
      some w ∈ (j.readRegs .virtual).toFinset.erase (some v) := by
    intro q w u held read
    refine Finset.mem_erase.mpr ⟨fun same => ?_, List.mem_toFinset.mpr read⟩
    obtain rfl := Option.some.inj same
    rw [(tables.home w q).mpr ⟨u, held⟩] at away
    contradiction
  have count := fullWaiting few tables full
    (fun q w u held unread => (scansFar pass inRange rest scans held unread).1) others
  have member : some v ∈ (j.readRegs .virtual).toFinset := List.mem_toFinset.mpr read
  have some := Finset.card_pos.mpr ⟨_, member⟩
  have room := holds.1
  rw [Finset.card_erase_of_mem member] at count
  rw [Finset.filter_filter]
  simp only [Nat.succ_le_iff]
  omega

theorem fetchesLeads {slot : Slot} (exact : plan.options.window = 0) (few : plan.usable ≤ 64)
    (pass : Passes position (envAbove steps) i j above) (inRange : position < positionLimit)
    (rest : Renames (position + 1) es steps) (holds : KeptAt plan.usable kept position j)
    (known : v.number < n) (inside : slot ∈ j.opcode.reads)
    (virtual : (j.operand slot).virtual = some v)
    (fetches : Fetches plan site v (j.operand slot).nextUse l p m) (scans : Scans plan n above j l)
    (leads : Leads (kept.filter fun x => x.start < position) total (position + 1)
      (j.readRegs .virtual) l) :
    Leads (kept.filter fun x => x.start < position) total (position + 1) (j.readRegs .virtual)
      (m.resolve slot p (j.operand slot).nextUse) := by
  have read : some v ∈ j.readRegs .virtual := Instr.memReadRegs.mpr ⟨slot, inside, virtual⟩
  have tables := (fetchesScans known inside virtual fetches scans).reading.sound.tables
  have holder := fetchedHolder scans.reading.sound fetches slot
  -- What is read here is not counted, so only the register that was taken for it matters.
  have entered : ∀ q w u, (m.resolve slot p (j.operand slot).nextUse).holder q = some ⟨w, u⟩ →
      some w ∉ j.readRegs .virtual → q ≠ p ∧ l.holder q = some ⟨w, u⟩ := by
    intro q w u held unread
    rw [holder] at held
    by_cases here : q = p
    · rw [here, Function.update_self] at held
      cases held
      exact absurd read unread
    · exact ⟨here, by rwa [Function.update_of_ne here] at held⟩
  cases fetches with
  | resident =>
    exact leadsSame leads tables rfl fun q w u held unread => ⟨(entered q w u held unread).2, unread⟩
  | @brought t _ away takes brings =>
    have taken := takesLeads exact scans.reading.sound.tables takes
      (fun q w u held unread => scansFar pass inRange rest scans held unread)
      (fun q w u held unpinned read => scansNear pass inRange scans held unpinned read)
      (scansRoom few pass inRange rest holds scans read away) leads
    have evictions : m.stats.evictions = t.stats.evictions := by cases brings <;> rfl
    refine leadsSame taken tables evictions fun q w u held unread => ⟨?_, unread⟩
    obtain ⟨other, held⟩ := entered q w u held unread
    rw [takesHolder takes other, held]

theorem resolvesLeads (exact : plan.options.window = 0) (few : plan.usable ≤ 64)
    (pass : Passes position (envAbove steps) i j above) (inRange : position < positionLimit)
    (rest : Renames (position + 1) es steps) (holds : KeptAt plan.usable kept position j)
    (known : ∀ slot ∈ slots, ∀ v, (j.operand slot).virtual = some v → v.number < n)
    (inside : slots ⊆ j.opcode.reads) (resolves : Resolves plan site j slots l m)
    (scans : Scans plan n above j l)
    (leads : Leads (kept.filter fun x => x.start < position) total (position + 1)
      (j.readRegs .virtual) l) :
    Leads (kept.filter fun x => x.start < position) total (position + 1) (j.readRegs .virtual) m := by
  induction resolves with
  | nil => exact leads
  | @cons slot slots v p l k m virtual fetches later ih =>
    obtain ⟨first, others⟩ := List.cons_subset.mp inside
    have known' := known slot List.mem_cons_self v virtual
    exact ih (fun slot inside => known slot (List.mem_cons_of_mem _ inside)) others
      (fetchesScans known' first virtual fetches scans)
      (fetchesLeads exact few pass inRange rest holds known' first virtual fetches scans leads)

/-- The intervals that have begun when the operands read at `position` are resolved. -/
def Begun (position : Nat) (i : Instr) (x : Reuse) : Prop :=
  x.start ≤ position ∧ i.writtenReg .virtual ≠ some (some x.value)

instance (position : Nat) (i : Instr) : DecidablePred (Begun position i) :=
  fun _ => inferInstanceAs (Decidable (_ ∧ _))

theorem releasedLeads (pass : Passes position (envAbove steps) i j above)
    (inRange : position < positionLimit) (rest : Renames (position + 1) es steps)
    (here : ∀ x, x.start = position → (x ∈ all ↔ x ∈ reusesAt position j))
    (past : ∀ x ∈ all, x.start < position → j.writtenReg .virtual ≠ some (some x.value))
    (subset : kept ⊆ all) (scans : Scans plan n above j m)
    (present : ∀ v, some v ∈ j.readRegs .virtual →
      ∃ q u, m.pinned.contains q = true ∧ m.holder q = some ⟨v, u⟩)
    (leads : Leads (kept.filter fun x => x.start < position)
      (all.filter fun x => x.start < position).card (position + 1) (j.readRegs .virtual) m) :
    Leads (kept.filter (Begun position j)) (all.filter (Begun position j)).card (position + 1) []
      (m.releases j.lastReads).unpin := by
  let fresh := all.filter fun x => x.start = position ∧ j.writtenReg .virtual ≠ some (some x.value)
  have stats : (m.releases j.lastReads).unpin.stats = m.stats := releasesStats m _
  have sound := releasesSound scans.reading.sound j.lastReads
  refine leadsGrow fresh leads (unpinSound sound).tables ?_ ?_ (by rw [stats])
    fun q v u held _ => ?_
  · intro x inside
    obtain ⟨listed, begun, unwritten⟩ := Finset.mem_filter.mp inside
    rw [Finset.mem_union, Finset.mem_filter, Finset.mem_filter]
    rcases Nat.lt_or_eq_of_le begun with before | now
    · exact .inl ⟨listed, before⟩
    · exact .inr ⟨subset listed, now, unwritten⟩
  · have apart : Disjoint (all.filter fun x => x.start < position) fresh := by
      refine Finset.disjoint_filter.mpr fun x _ before now => ?_
      omega
    rw [← Finset.card_union_of_disjoint apart]
    refine Finset.card_le_card fun x inside => ?_
    rw [Finset.mem_union, Finset.mem_filter, Finset.mem_filter] at inside
    rcases inside with ⟨listed, before⟩ | ⟨listed, now, unwritten⟩
    · exact Finset.mem_filter.mpr ⟨listed, Nat.le_of_lt before, past x listed before⟩
    · exact Finset.mem_filter.mpr ⟨listed, Nat.le_of_eq now, unwritten⟩
  · obtain ⟨before, next, reads⟩ := releasedTracks pass inRange rest scans present held
    by_cases read : some v ∈ j.readRegs .virtual
    · obtain ⟨slot, inside, virtual, rfl⟩ := reads read
      obtain ⟨x, position, rank, -⟩ := Renaming.nextLate rest next
      refine .inr ⟨⟨v, _, x⟩, Finset.mem_filter.mpr ⟨(here _ rfl).mpr (memReusesAt.mpr
        ⟨rfl, slot, .inl inside, virtual, position⟩), rfl, fun written => ?_⟩, rfl, rank.symm⟩
      obtain ⟨slot', writes, virtual'⟩ := Instr.memWrittenReg.mp written
      have flows := Renaming.renamesFlows pass rest
      exact (Renaming.flowsWritten flows writes virtual').1 (Renaming.flowsRead flows inside virtual).1
    · exact .inl ⟨before, read⟩

theorem settleSound (sound : Sound plan n l l.free) :
    Sound plan n (l.settle v u) (l.settle v u).free := by
  unfold Ledger.settle
  split
  · exact releaseSound sound v
  · exact sound

theorem takenLeads (exact : plan.options.window = 0) (few : plan.usable ≤ 64)
    (rest : Renames (position + 1) es steps) (holds : KeptAt plan.usable kept position j)
    (written : j.writtenReg .virtual = some (some v)) (tables : Tables plan n l l.free)
    (unpinned : l.pinned = .empty) (tracks : l.Tracks (envAbove steps))
    (leads : Leads (kept.filter (Begun position j)) total (position + 1) [] l)
    (takes : Takes plan site l p m) :
    Leads (kept.filter (Begun position j)) total (position + 1) [] m := by
  have ahead : ∀ q w u, l.holder q = some ⟨w, u⟩ → position + 1 ≤ u.rank := by
    intro q w u held
    obtain ⟨x, -, rank, late⟩ := Renaming.nextLate rest (tracks q w u held)
    omega
  refine takesLeads exact tables takes (fun q w u held _ => ⟨ahead q w u held, ?_⟩)
    (fun q w u _ _ inside => absurd inside List.not_mem_nil) (fun full => ?_) leads
  · rw [unpinned, RegisterSet.containsEmpty]
  · have count : plan.usable ≤ (l.waiting [] (position + 1)).card +
        (∅ : Finset (Option VirtualReg)).card :=
      fullWaiting few tables full (fun q w u held _ => ahead q w u held) (by simp)
    have crossing : ((kept.filter (Begun position j)).filter fun x => position + 1 ≤ x.stop) ⊆
        kept.filter fun x => x.start ≤ position ∧ position < x.stop ∧ some x.value ≠ some v := by
      intro x inside
      obtain ⟨begun, after⟩ := Finset.mem_filter.mp inside
      obtain ⟨listed, start, other⟩ := Finset.mem_filter.mp begun
      exact Finset.mem_filter.mpr ⟨listed, start, after, fun same => other (by rw [written, same])⟩
    have fewer := Finset.card_le_card crossing
    have room := holds.2 (some v) written
    rw [Finset.card_empty] at count
    omega

theorem settledLeads {slot : Slot}
    (here : ∀ x, x.start = position → (x ∈ all ↔ x ∈ reusesAt position j))
    (past : ∀ x ∈ all, x.start < position → j.writtenReg .virtual ≠ some (some x.value))
    (subset : kept ⊆ all) (writes : j.opcode.writes = some slot)
    (virtual : (j.operand slot).virtual = some v)
    (defined : Sound plan n (m.define j slot v p) m.free)
    (leads : Leads (kept.filter (Begun position j)) (all.filter (Begun position j)).card
      (position + 1) [] m) :
    Leads (kept.filter fun x => x.start < position + 1)
      (all.filter fun x => x.start < position + 1).card (position + 1) []
      ((m.define j slot v p).settle v (j.operand slot).nextUse) := by
  have written : j.writtenReg .virtual = some (some v) := by
    rw [Instr.writtenRegSome writes, Operand.reg, virtual]
  refine leadsGrow (all.filter fun x => x.start = position ∧ x.value = v) leads
    (settleSound defined).tables ?_ ?_ (congrArg Stats.evictions (settleStats _ v _))
    fun q w u held _ => ?_
  · intro x inside
    obtain ⟨listed, start⟩ := Finset.mem_filter.mp inside
    rw [Finset.mem_union, Finset.mem_filter, Finset.mem_filter]
    by_cases same : x.value = v
    · refine .inr ⟨subset listed, ?_, same⟩
      by_contra other
      exact past x (subset listed) (by omega) (by rw [written, same])
    · refine .inl ⟨listed, by omega, fun equal => same ?_⟩
      rw [written] at equal
      exact (Option.some.inj (Option.some.inj equal)).symm
  · have apart : Disjoint (all.filter (Begun position j))
        (all.filter fun x => x.start = position ∧ x.value = v) :=
      Finset.disjoint_filter.mpr fun x _ begun now => begun.2 (by rw [written, now.2])
    rw [← Finset.card_union_of_disjoint apart]
    refine Finset.card_le_card fun x inside => ?_
    rw [Finset.mem_union, Finset.mem_filter, Finset.mem_filter] at inside
    rcases inside with ⟨listed, start, -⟩ | ⟨listed, start, -⟩
    · exact Finset.mem_filter.mpr ⟨listed, by omega⟩
    · exact Finset.mem_filter.mpr ⟨listed, by omega⟩
  · rcases settledHolder defined held with old | ⟨-, same, again⟩
    · exact .inl ⟨old, List.not_mem_nil⟩
    · cases same
      cases use : (j.operand slot).nextUse with
      | never => exact absurd use again
      | read x =>
        refine .inr ⟨⟨v, position, x.val⟩, Finset.mem_filter.mpr ⟨(here _ rfl).mpr
          (memReusesAt.mpr ⟨rfl, slot, .inr writes, virtual, ?_⟩), rfl, rfl⟩, rfl, rfl⟩
        rw [use]
        rfl

theorem definesLeads (exact : plan.options.window = 0) (few : plan.usable ≤ 64)
    (rest : Renames (position + 1) es steps) (holds : KeptAt plan.usable kept position j)
    (here : ∀ x, x.start = position → (x ∈ all ↔ x ∈ reusesAt position j))
    (past : ∀ x ∈ all, x.start < position → j.writtenReg .virtual ≠ some (some x.value))
    (subset : kept ⊆ all) (sound : Sound plan n l l.free) (unpinned : l.pinned = .empty)
    (wants : ∀ v, j.writtenReg .virtual = some (some v) → v.number < n ∧ l.record v = {})
    (tracks : l.Tracks (envAbove steps))
    (leads : Leads (kept.filter (Begun position j)) (all.filter (Begun position j)).card
      (position + 1) [] l) (defines : Defines plan site j l k) :
    Leads (kept.filter fun x => x.start < position + 1)
      (all.filter fun x => x.start < position + 1).card (position + 1) [] k := by
  cases defines with
  | nothing silent =>
    have same : ∀ s : Finset Reuse, s.filter (Begun position j) =
        s.filter fun x => x.start < position + 1 := by
      intro s
      refine Finset.filter_congr fun x _ => ?_
      have unwritten : j.writtenReg .virtual ≠ some (some x.value) := by
        simp [Instr.writtenRegNone silent]
      exact ⟨fun begun => Nat.lt_succ_of_le begun.1,
        fun before => ⟨Nat.le_of_lt_succ before, unwritten⟩⟩
    rwa [same, same] at leads
  | @value slot v p m writes virtual takes =>
    have written : j.writtenReg .virtual = some (some v) := by
      rw [Instr.writtenRegSome writes, Operand.reg, virtual]
    obtain ⟨known, new⟩ := wants v written
    have defined := defineSound (takesSound sound takes) (takesNew sound takes new) known j slot
    exact settledLeads here past subset writes virtual defined
      (takenLeads exact few rest holds written sound.tables unpinned tracks leads takes)

structure Timeline (usable : Nat) (all kept : Finset Reuse) (position : Nat) (is : List Instr) :
    Prop where
  subset : kept ⊆ all
  ahead : ∀ x, position ≤ x.start → (x ∈ all ↔ x ∈ reuses position is)
  past : ∀ x ∈ all, x.start < position → some x.value ∉ writtenRegs .virtual is
  keepable : Keepable usable kept position is

theorem timelineHere {usable : Nat} {is : List Instr}
    (timeline : Timeline usable all kept position (j :: is)) {x : Reuse} (start : x.start = position) :
    x ∈ all ↔ x ∈ reusesAt position j :=
  (timeline.ahead x (Nat.le_of_eq start.symm)).trans (reusesHead start)

theorem timelinePast {usable : Nat} {is : List Instr}
    (timeline : Timeline usable all kept position (j :: is)) {x : Reuse} (listed : x ∈ all)
    (before : x.start < position) : j.writtenReg .virtual ≠ some (some x.value) := by
  intro written
  have unwritten := timeline.past x listed before
  rw [writtenRegsCons, written] at unwritten
  exact unwritten List.mem_cons_self

theorem timelineTail {usable : Nat} (renames : Renames position es (s :: steps))
    (timeline : Timeline usable all kept position (s.instr :: steps.map Step.instr)) :
    Timeline usable all kept (position + 1) (steps.map Step.instr) := by
  refine ⟨timeline.subset, fun x later => ?_, fun x listed before written => ?_, timeline.keepable.2⟩
  · rw [timeline.ahead x (by omega), reusesTail later]
  · obtain ⟨unread, unwritten⟩ := Renaming.renamesApart renames written
    rcases Nat.lt_or_eq_of_le (Nat.le_of_lt_succ before) with earlier | now
    · refine timeline.past x listed earlier ?_
      rw [writtenRegsCons]
      exact List.mem_append_right _ written
    · obtain ⟨-, slot, read | writes, virtual, -⟩ := memReusesAt.mp ((timelineHere timeline now).mp listed)
      · exact unread (Instr.memReadRegs.mpr ⟨slot, read, virtual⟩)
      · exact unwritten (Instr.memWrittenReg.mpr ⟨slot, writes, virtual⟩)

theorem crossesLeads (exact : plan.options.window = 0) (few : plan.usable ≤ 64)
    (renames : Renames position es (s :: steps)) (stage : Stage plan n (s :: steps) l)
    (numbered : s.env.minted ≤ n) (tracks : l.Tracks s.env)
    (timeline : Timeline plan.usable all kept position (s.instr :: steps.map Step.instr))
    (leads : Leads (kept.filter fun x => x.start < position)
      (all.filter fun x => x.start < position).card position [] l)
    (crosses : Crosses plan s.handle s.instr l k) :
    k.Tracks (envAbove steps) ∧ Leads (kept.filter fun x => x.start < position + 1)
      (all.filter fun x => x.start < position + 1).card (position + 1) [] k := by
  have wants := stageWants renames stage numbered
  have tracks' := crossesTracks renames stage numbered tracks crosses
  obtain @⟨m, _, reads, writes⟩ := crosses
  have sound := resolvedSound wants stage.sound reads
  have new := fun v => writtenNew (v := v) wants stage.sound reads
  have present := fun v => readPresent (v := v) wants stage.sound reads
  have tracked := resolvedTracks renames stage numbered tracks reads
  cases renames with
  | @cons _ h i j env es _ inRange pass rest =>
    have scans := resolvesScans (wantsKnown wants) (List.Subset.refl _) reads
      (startScans stage.sound tracks)
    have begins : Leads (kept.filter fun x => x.start < position)
        (all.filter fun x => x.start < position).card (position + 1) (j.readRegs .virtual) l.unpin :=
      fun t late => leadsSame leads (startReading stage.sound).sound.tables rfl
        (fun q v u held _ => ⟨held, List.not_mem_nil⟩) t (by omega)
    have resolved := resolvesLeads exact few pass inRange rest timeline.keepable.1 (wantsKnown wants)
      (List.Subset.refl _) reads (startScans stage.sound tracks) begins
    have here := fun x => timelineHere (x := x) timeline
    have past := fun x => timelinePast (x := x) timeline
    have released := releasedLeads pass inRange rest here past timeline.subset scans present resolved
    exact ⟨tracks', definesLeads exact few rest timeline.keepable.1 here past timeline.subset sound rfl
      new tracked released writes⟩

theorem walksLeads (exact : plan.options.window = 0) (few : plan.usable ≤ 64)
    (renames : Renames position es steps) (stage : Stage plan n steps l)
    (numbered : (envAbove steps).minted ≤ n) (tracks : l.Tracks (envAbove steps))
    (timeline : Timeline plan.usable all kept position (steps.map Step.instr))
    (leads : Leads (kept.filter fun x => x.start < position)
      (all.filter fun x => x.start < position).card position [] l) (walks : Walks plan steps l m) :
    Leads (kept.filter fun x => x.start < position + steps.length)
      (all.filter fun x => x.start < position + steps.length).card (position + steps.length) [] m := by
  induction walks generalizing position es with
  | nil => exact leads
  | @cons s steps l k m crosses rest ih =>
    have next := crossesStage renames stage numbered crosses
    have timeline' := timelineTail renames timeline
    obtain ⟨tracks', leads'⟩ := crossesLeads exact few renames stage numbered tracks timeline leads crosses
    have more : position + (s :: steps).length = position + 1 + steps.length := by
      rw [List.length_cons]
      omega
    rw [more]
    cases renames with
    | cons inRange pass later =>
      exact ih later next (Nat.le_trans pass.minted.1 numbered) tracks' timeline' leads'

theorem initialLeads (plan : Plan) (steps : List Step) (all kept : Finset Reuse) :
    Leads (kept.filter fun x => x.start < 0) (all.filter fun x => x.start < 0).card 0 []
      (Ledger.initial plan steps) := by
  intro t _
  have none : (Ledger.initial plan steps).waiting [] t = ∅ := by
    refine Finset.eq_empty_of_forall_notMem fun q inside => ?_
    obtain ⟨v, u, held, -⟩ := memWaiting.mp inside
    simp [Ledger.initial] at held
  rw [none]
  simp [Ledger.initial]

theorem allocatedLeast {b : Block} {summary : Renaming.Summary} {c : Nat} {options : Options}
    {output : Output} (spells : b.Spells (steps.map fun s => (s.handle, s.instr)))
    (renames : Renames 0 es steps) (numbered : (envAbove steps).minted ≤ summary.numVirtual)
    (exact : options.window = 0) (ok : (b.allocateRenamed summary c options).result = .ok output)
    (subset : kept ⊆ reuses 0 (steps.map Step.instr))
    (keepable : Keepable output.usable kept 0 (steps.map Step.instr)) :
    output.stats.evictions + kept.card ≤ (reuses 0 (steps.map Step.instr)).card := by
  obtain ⟨plan, m, made, walks, -, -, rfl⟩ := allocatedWalk spells renames numbered ok
  have timeline : Timeline plan.usable (reuses 0 (steps.map Step.instr)) kept 0
      (steps.map Step.instr) :=
    ⟨subset, fun x _ => Iff.rfl, fun x _ before => absurd before (Nat.not_lt_zero _), keepable⟩
  have ends := walksLeads ((planOptions made).symm ▸ exact) (planSound made).few renames
    (initialStage plan _ steps) numbered (fun q v u held => by simp [Ledger.initial] at held) timeline
    (initialLeads plan steps _ _) walks (0 + steps.length + positionLimit) (Nat.le_add_right _ _)
  have begun : ∀ x ∈ reuses 0 (steps.map Step.instr), x.start < 0 + steps.length := by
    intro x inside
    have bound := (reusesBound inside).2
    rwa [List.length_map] at bound
  have stopped : ∀ x ∈ kept, x.stop < 0 + steps.length + positionLimit :=
    fun x inside => Nat.lt_of_lt_of_le (reusesStop (subset inside)) (Nat.le_add_left _ _)
  rw [Finset.filter_true_of_mem begun, Finset.filter_true_of_mem fun x inside =>
    begun x (subset inside), Finset.filter_true_of_mem stopped] at ends
  simp only
  omega

end

/-- With no window, no way of keeping values in the registers used leaves fewer of them to be brought
back than the allocation evicts. -/
theorem farthestEvictsLeast (b : Block) (sound : b.Sound) (given : ∀ i ∈ b.values, i.inserted = false)
    (short : 11 * b.size < 4294967295) :
    ∃ summary, b.rename.result = .ok summary ∧
      (∀ x ∈ reuses 0 b.rename.block.values, ∀ y ∈ reuses 0 b.rename.block.values,
        x.value = y.value → x.start = y.start → x = y) ∧
      ∀ (k : Nat) (options : Options) (output : Output), options.window = 0 →
        (b.rename.block.allocateRenamed summary k options).result = .ok output →
        ∀ kept ⊆ reuses 0 b.rename.block.values,
          Keepable output.usable kept 0 b.rename.block.values →
          output.stats.evictions + kept.card ≤ (reuses 0 b.rename.block.values).card := by
  obtain ⟨steps, renamed, renames, spells⟩ := b.renameOk sound given (by omega)
  rw [Renaming.renamedValues spells]
  refine ⟨_, renamed, fun x first y second => reusesOnce renames first second, ?_⟩
  intro k options output exact ok kept subset keepable
  exact allocatedLeast spells renames (Nat.le_refl _) exact ok subset keepable

theorem spilledSumEvictsLeast :
    ∃ kept ⊆ reuses 0 spilledSum.rename.block.values,
      Keepable 2 kept 0 spilledSum.rename.block.values ∧ kept.card = 6 ∧
      (reuses 0 spilledSum.rename.block.values).card = 9 ∧
      (spilledSum.rename.block.allocateRenamed ⟨4, 6, 4⟩ 3 {window := 0}).result =
        .ok ⟨2, some ⟨2⟩, 2, ⟨3, 2, 2, 1, 9⟩⟩ ∧ 3 + kept.card ≤ 9 := by
  obtain ⟨summary, renamed, -, least⟩ := farthestEvictsLeast spilledSum (Chain.ofListSound _)
    (by decide +kernel) (by decide +kernel)
  have ran : spilledSum.rename.result = .ok ⟨4, 6, 4⟩ := by decide +kernel
  obtain rfl := Except.ok.inj (renamed.symm.trans ran)
  have ok : (spilledSum.rename.block.allocateRenamed ⟨4, 6, 4⟩ 3 {window := 0}).result =
      .ok ⟨2, some ⟨2⟩, 2, ⟨3, 2, 2, 1, 9⟩⟩ := by decide +kernel
  have keepable : Keepable 2 ((reuses 0 spilledSum.rename.block.values).filter fun x =>
      x.stop = x.start + 1) 0 spilledSum.rename.block.values := by decide +kernel
  have total : (reuses 0 spilledSum.rename.block.values).card = 9 := by decide +kernel
  have bound := least 3 {window := 0} _ rfl ok _ (Finset.filter_subset _ _) keepable
  rw [total] at bound
  exact ⟨_, Finset.filter_subset _ _, keepable, by decide +kernel, total, ok, bound⟩

end Straightline.Allocation
