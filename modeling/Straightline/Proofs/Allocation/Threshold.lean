import Straightline.Proofs.Allocation.Accounting
import Straightline.Proofs.Allocation.Liveness
import Straightline.Proofs.Allocation.Outcome
import Straightline.Proofs.Renaming.Meaning

/-! The pressure of a block is the number of registers below which it spills. With that many, a
register is free whenever one is wanted. With fewer, and where every value read is written first, an
allocation that evicts nothing would keep every open range in a register, and so would fit the
pressure into the registers it has. -/
namespace Straightline.Allocation
open Renaming (Env Step Renames Flows envAbove)

section
variable {plan : Plan} {n position : Nat} {site : Site} {l m k : Ledger} {i : Instr}
  {slots : List Slot} {spare : List PhysicalReg} {v w : VirtualReg} {p : PhysicalReg} {h : Handle}
  {env : Env} {es : List (Handle × Instr)} {s : Step} {steps : List Step}

theorem takesEvictions (takes : Takes plan site l p m) :
    m.stats.evictions = l.stats.evictions ∧ m.record = l.record ∧ l.free = p :: m.free ∨
      m.stats.evictions = l.stats.evictions + 1 ∧ l.free = [] := by
  cases takes with
  | free first => exact .inl ⟨rfl, rfl, first⟩
  | evicted full held unpinned evicts =>
    right
    cases evicts <;> exact ⟨rfl, full⟩

theorem bringsEvictions {u : NextUse} (brings : Brings plan site v p u l m) :
    m.stats.evictions = l.stats.evictions := by
  cases brings <;> rfl

theorem crossesEvictions (crosses : Crosses plan h i l k) :
    l.stats.evictions ≤ k.stats.evictions := by
  refine crossesInduct (fun m => l.stats.evictions ≤ m.stats.evictions) ?_ ?_
    (fun _ _ _ _ grows => grows) (fun _ grows => grows) ?_ (fun _ _ _ _ grows => grows) crosses
    (Nat.le_refl _)
  · intro l m p takes grows
    rcases takesEvictions takes with ⟨same, -⟩ | ⟨more, -⟩ <;> omega
  · intro l m v p u brings grows
    rw [bringsEvictions brings]
    exact grows
  · intro m v grows
    rw [releaseStats]
    exact grows

theorem walksEvictions (walks : Walks plan steps l m) : l.stats.evictions ≤ m.stats.evictions := by
  induction walks with
  | nil => exact Nat.le_refl _
  | cons crosses rest ih => exact Nat.le_trans (crossesEvictions crosses) ih

theorem resolvesEvictions (resolves : Resolves plan site i slots l m) :
    m.stats.evictions = l.stats.evictions ∨
      ∃ before slot after k v, slots = before ++ slot :: after ∧ Resolves plan site i before l k ∧
        (i.operand slot).virtual = some v ∧ (k.record v).home = none ∧ k.free = [] := by
  induction resolves with
  | nil => exact .inl rfl
  | @cons slot slots v p l k m virtual fetches rest ih =>
    have here : k.stats.evictions = l.stats.evictions ∨ (l.record v).home = none ∧ l.free = [] := by
      cases fetches with
      | resident => exact .inl rfl
      | brought away takes brings =>
        rw [bringsEvictions brings]
        rcases takesEvictions takes with ⟨same, -⟩ | ⟨-, full⟩
        · exact .inl same
        · exact .inr ⟨away, full⟩
    rcases here with same | ⟨away, full⟩
    · rcases ih with later | ⟨before, slot', after, t, w, rfl, resolves, later⟩
      · exact .inl (later.trans same)
      · exact .inr ⟨slot :: before, slot', after, t, w, rfl, .cons virtual fetches resolves, later⟩
    · exact .inr ⟨[], slot, slots, l, v, rfl, .nil l, virtual, away, full⟩

theorem definesEvictions (defines : Defines plan site i l k) :
    k.stats.evictions = l.stats.evictions ∨
      (∃ slot, i.opcode.writes = some slot) ∧ l.free = [] := by
  cases defines with
  | nothing => exact .inl rfl
  | @value slot v p m writes virtual takes =>
    have stats : ((m.define i slot v p).settle v (i.operand slot).nextUse).stats = m.stats :=
      settleStats _ v _
    rw [stats]
    rcases takesEvictions takes with ⟨same, -⟩ | ⟨-, full⟩
    · exact .inl same
    · exact .inr ⟨⟨slot, writes⟩, full⟩

theorem roomyCrosses (few : plan.usable ≤ 64) (renames : Renames position es (s :: steps))
    (stage : Stage plan n (s :: steps) l) (numbered : s.env.minted ≤ n)
    (live : s.env.maxLive ≤ plan.usable) (pressure : s.env.maxPressure ≤ plan.usable)
    (crosses : Crosses plan s.handle s.instr l k) : k.stats.evictions = l.stats.evictions := by
  have wants := stageWants renames stage numbered
  obtain @⟨m, _, reads, writes⟩ := crosses
  cases renames with
  | @cons _ h i j env es _ inRange pass rest =>
    have flows := Renaming.renamesFlows pass rest
    have counted := pass.sound.counted
    have below := Renaming.renamesSound rest
    have counted' := below.counted
    have counts := pass.sound.live
    have counts' := below.live
    have grows := pass.maxLive
    have released : (m.releases j.lastReads).unpin.stats = m.stats := releasesStats m _
    have read : m.stats.evictions = l.stats.evictions := by
      rcases resolvesEvictions reads with same | ⟨before, slot, after, t, v, split, resolves, virtual,
        away, full⟩
      · exact same
      · have many := readsFull counts few flows stage.sound wants stage.resident split resolves virtual
          away full
        simp only at live
        omega
    rw [← read, ← released]
    rcases definesEvictions writes with same | ⟨⟨slot, written⟩, full⟩
    · exact same
    · rcases writeStops counts' few flows stage.sound wants stage.resident reads written full with
        many | many
      · simp only at live
        omega
      · simp only at many pressure
        omega

theorem roomyWalks (few : plan.usable ≤ 64) (renames : Renames position es steps)
    (stage : Stage plan n steps l) (numbered : (envAbove steps).minted ≤ n)
    (live : (envAbove steps).maxLive ≤ plan.usable)
    (pressure : (envAbove steps).maxPressure ≤ plan.usable) (walks : Walks plan steps l m) :
    m.stats.evictions = l.stats.evictions := by
  induction walks generalizing position es with
  | nil => rfl
  | @cons s steps l k m crosses rest ih =>
    have next := crossesStage renames stage numbered crosses
    have same := roomyCrosses few renames stage numbered live pressure crosses
    cases renames with
    | cons inRange pass later =>
      exact (ih later next (Nat.le_trans pass.minted.1 numbered) (Nat.le_trans pass.maxLive live)
        (Nat.le_trans pass.maxPressure pressure)).trans same

theorem liveListed (sound : env.Sound) :
    ∃ vs : List VirtualReg, vs.Nodup ∧ vs.length = env.live ∧ ∀ v ∈ vs, env.Live v := by
  have found : ∀ e ∈ env.ranges.toList, env.ranges[e.1]? = some e.2 :=
    fun e inside => Std.TreeMap.mem_toList_iff_getElem?_eq_some.mp inside
  refine ⟨env.ranges.toList.map Prod.snd, ?_, by rw [List.length_map, Std.TreeMap.length_toList, sound.live],
    fun v inside => ?_⟩
  · refine List.pairwise_map.mpr (Std.TreeMap.distinct_keys_toList.imp_of_mem ?_)
    intro e e' inside inside' differ same
    have equal := sound.distinct e.1 e'.1 e.2 (found e inside) (same ▸ found e' inside')
    exact differ (by rw [equal]; exact Std.ReflCmp.compare_self)
  · obtain ⟨e, listed, rfl⟩ := List.mem_map.mp inside
    exact ⟨e.1, found e listed⟩

theorem residentCount (tables : Tables plan n l spare) (sound : env.Sound)
    (resident : ∀ v, env.Live v → (l.record v).home ≠ none) :
    env.live + spare.length ≤ plan.usable := by
  obtain ⟨vs, nodup, length, live⟩ := liveListed sound
  have housed : ∀ v ∈ vs, ∃ p u, (l.record v).home = some p ∧ l.holder p = some ⟨v, u⟩ := by
    intro v inside
    obtain ⟨p, home⟩ := Option.ne_none_iff_exists'.mp (resident v (live v inside))
    obtain ⟨u, held⟩ := (tables.home v p).mp home
    exact ⟨p, u, home, held⟩
  -- The homes of the live values and the spare registers are distinct and usable.
  let number v := ((l.record v).home.map Reg.number).getD 0
  have distinct : (vs.map number ++ spare.map Reg.number).Nodup := by
    refine List.nodup_append.mpr ⟨nodup.map_on fun v inside w inside' same => ?_,
      tables.nodup.map fun _ _ => Reg.numberInjective, fun x inside y inside' same => ?_⟩
    · obtain ⟨p, u, home, held⟩ := housed v inside
      obtain ⟨q, u', home', held'⟩ := housed w inside'
      simp only [number, home, home', Option.map_some, Option.getD_some] at same
      rw [Reg.numberInjective same, held'] at held
      simp only [Option.some.injEq, Occupant.mk.injEq] at held
      exact held.1.symm
    · obtain ⟨v, listed, rfl⟩ := List.mem_map.mp inside
      obtain ⟨q, empty, rfl⟩ := List.mem_map.mp inside'
      obtain ⟨p, u, home, held⟩ := housed v listed
      simp only [number, home, Option.map_some, Option.getD_some] at same
      rw [Reg.numberInjective same, ((tables.empty q).mp empty).2] at held
      contradiction
  have inside : vs.map number ++ spare.map Reg.number ⊆ List.range plan.usable := by
    intro x member
    rw [List.mem_range]
    rcases List.mem_append.mp member with value | empty
    · obtain ⟨v, listed, rfl⟩ := List.mem_map.mp value
      obtain ⟨p, u, home, held⟩ := housed v listed
      simp only [number, home, Option.map_some, Option.getD_some]
      exact (tables.held p _ held).1
    · obtain ⟨q, listed, rfl⟩ := List.mem_map.mp empty
      exact ((tables.empty q).mp listed).1
  have short := (List.subperm_of_subset distinct inside).length_le
  rwa [List.length_append, List.length_map, List.length_map, List.length_range, length] at short

theorem resolvesStill (resident : ∀ slot ∈ slots, ∀ v, (i.operand slot).virtual = some v →
      (l.record v).home ≠ none) (resolves : Resolves plan site i slots l m) :
    m.record = l.record ∧ m.stats = l.stats := by
  induction resolves with
  | nil => exact ⟨rfl, rfl⟩
  | cons virtual fetches rest ih =>
    cases fetches with
    | resident => exact ih fun slot inside => resident slot (List.mem_cons_of_mem _ inside)
    | brought away => exact absurd away (resident _ List.mem_cons_self _ virtual)

theorem quietKept {below above : Env} (flows : Flows below above i)
    (resident : ∀ v, above.Live v → (l.record v).home ≠ none)
    (resolves : Resolves plan site i i.opcode.reads l.unpin m) :
    (m.releases i.lastReads).unpin.stats = l.stats ∧
      ∀ v, below.Live v → i.writtenReg .virtual ≠ some (some v) →
        ((m.releases i.lastReads).unpin.record v).home ≠ none := by
  obtain ⟨record, stats⟩ := resolvesStill (l := l.unpin) (fun slot inside v virtual =>
    resident v (Renaming.flowsRead flows inside virtual).1) resolves
  refine ⟨(releasesStats m _).trans stats, fun v live unwritten => ?_⟩
  have same : (m.releases i.lastReads).unpin.record v = m.record v :=
    releasesOther fun last => lastReadDead flows last live
  rw [same, record]
  rcases flows.kept v live with old | written
  · exact resident v old
  · exact absurd written unwritten

theorem quietDefines {below above : Env} (flows : Flows below above i)
    (others : ∀ v, below.Live v → i.writtenReg .virtual ≠ some (some v) → (l.record v).home ≠ none)
    (defines : Defines plan site i l k) (quiet : k.stats.evictions = l.stats.evictions)
    (live : below.Live w) : (k.record w).home ≠ none := by
  cases defines with
  | nothing silent => exact others w live (by simp [Instr.writtenRegNone silent])
  | @value slot v p m writes virtual takes =>
    have written : i.writtenReg .virtual = some (some v) := by
      rw [Instr.writtenRegSome writes, Operand.reg, virtual]
    obtain ⟨-, dead, -⟩ := Renaming.flowsWritten flows writes virtual
    have defined : ((m.define i slot v p).settle v (i.operand slot).nextUse).stats = m.stats :=
      settleStats _ v _
    rw [defined] at quiet
    rcases takesEvictions takes with ⟨-, same, -⟩ | ⟨more, -⟩
    · by_cases here : w = v
      · subst here
        have again : (i.operand slot).nextUse ≠ .never := fun never => dead.mp never live
        simp [Ledger.settle, again, Ledger.define]
      · rw [settleOther _ here]
        simp only [Ledger.define, Function.update_of_ne here, same]
        refine others w live fun same => here ?_
        rw [written] at same
        exact (Option.some.inj (Option.some.inj same)).symm
    · omega

theorem quietDemand {j : Instr} {below above : Env} (pass : Renaming.Passes position below i j above)
    (open' : below.Sound) (tables : Tables plan n l l.free)
    (others : ∀ v, below.Live v → j.writtenReg .virtual ≠ some (some v) → (l.record v).home ≠ none)
    (defines : Defines plan site j l k) (quiet : k.stats.evictions = l.stats.evictions) :
    below.demand (i.writtenReg .source) ≤ plan.usable := by
  cases defines with
  | nothing silent =>
    rw [Instr.writtenRegNone (pass.relabels.opcode ▸ silent), Env.demand]
    exact Nat.zero_le _
  | @value slot v p m writes virtual takes =>
    have defined : ((m.define j slot v p).settle v (j.operand slot).nextUse).stats = m.stats :=
      settleStats _ v _
    have slot' : i.opcode.writes = some slot := pass.relabels.opcode ▸ writes
    have written : j.writtenReg .virtual = some (some v) := by
      rw [Instr.writtenRegSome writes, Operand.reg, virtual]
    rw [defined] at quiet
    rw [Instr.writtenRegSome slot', Operand.reg, Env.demand]
    split
    · rename_i unread
      -- The target is a range of its own, so it takes a register on top of the open ones.
      have new : ¬ below.Live v := by
        intro live
        obtain ⟨r, range⟩ := live
        obtain ⟨w, virtual', -, -, -, read | ⟨-, fresh, -⟩⟩ := pass.written slot slot'
        · rw [unread] at read
          contradiction
        · obtain rfl := Option.some.inj (virtual.symm.trans virtual')
          have bound := open'.bounded r v range
          omega
      have count := residentCount tables open' fun w live => others w live fun same => by
        rw [written] at same
        exact new (Option.some.inj (Option.some.inj same) ▸ live)
      rcases takesEvictions takes with ⟨-, -, first⟩ | ⟨more, -⟩
      · rw [first, List.length_cons] at count
        omega
      · omega
    · exact Nat.zero_le _

theorem quietCrosses (renames : Renames position es (s :: steps))
    (stage : Stage plan n (s :: steps) l) (numbered : s.env.minted ≤ n)
    (resident : ∀ v, s.env.Live v → (l.record v).home ≠ none)
    (crosses : Crosses plan s.handle s.instr l k) (quiet : k.stats.evictions = l.stats.evictions) :
    (∀ v, (envAbove steps).Live v → (k.record v).home ≠ none) ∧
      s.env.maxPressure ≤ max (envAbove steps).maxPressure plan.usable := by
  have wants := stageWants renames stage numbered
  obtain @⟨m, _, reads, writes⟩ := crosses
  have sound := resolvedSound wants stage.sound reads
  cases renames with
  | @cons _ h i j env es _ inRange pass rest =>
    have flows := Renaming.renamesFlows pass rest
    obtain ⟨stats, others⟩ := quietKept flows resident reads
    rw [← stats] at quiet
    refine ⟨fun v => quietDefines flows others writes quiet, ?_⟩
    have demand := quietDemand pass (Renaming.renamesSound rest) sound.tables others writes quiet
    rw [pass.pressure]
    exact max_le_max (Nat.le_refl _) demand

theorem quietWalks (renames : Renames position es steps) (stage : Stage plan n steps l)
    (numbered : (envAbove steps).minted ≤ n)
    (resident : ∀ v, (envAbove steps).Live v → (l.record v).home ≠ none)
    (walks : Walks plan steps l m) (quiet : m.stats.evictions = l.stats.evictions) :
    (envAbove steps).maxLive ≤ plan.usable ∧ (envAbove steps).maxPressure ≤ plan.usable := by
  induction walks generalizing position es with
  | nil => exact ⟨Nat.zero_le _, Nat.zero_le _⟩
  | @cons s steps l k m crosses rest ih =>
    have next := crossesStage renames stage numbered crosses
    have grows := crossesEvictions crosses
    have grows' := walksEvictions rest
    simp only [Ledger.advance] at grows'
    obtain ⟨resident', pressure⟩ := quietCrosses renames stage numbered resident crosses (by omega)
    cases renames with
    | cons inRange pass later =>
      have here := residentCount stage.sound.tables pass.sound resident
      have quiet' : m.stats.evictions = k.advance.stats.evictions := by
        simp only [Ledger.advance]
        omega
      obtain ⟨live, pressure'⟩ := ih later next (Nat.le_trans pass.minted.1 numbered) resident' quiet'
      have peak := pass.peak
      have counts := pass.sound.live
      simp only [Renaming.envAboveCons] at here pressure ⊢
      omega

end

section
variable {b : Block} {es : List (Handle × Instr)} {steps : List Step} {k : Nat} {options : Options}
  {output : Output} (spells : b.Spells (steps.map fun s => (s.handle, s.instr)))
  (renames : Renames 0 es steps) (given : ∀ e ∈ es, e.2.inserted = false)
  (ok : (b.allocateRenamed (envAbove steps).summary k options).result = .ok output)
include spells renames given ok

theorem roomyOutput (roomy : (envAbove steps).summary.maxPressure ≤ k) :
    output = ⟨k, none, 0, {}⟩ ∧
      (b.allocateRenamed (envAbove steps).summary k options).block.numInserted = 0 := by
  obtain ⟨plan, m, made, walks, same, books, back, -, inserted⟩ :=
    allocatedBooks spells renames given (Nat.le_refl _) ok
  obtain ⟨few, ⟨-, rfl⟩ | ⟨tight, -⟩⟩ := planMade made
  · have none : m.stats.evictions = 0 := roomyWalks few renames (initialStage _ _ steps)
      (Nat.le_refl _) (Nat.le_trans (Nat.le_max_right _ _) roomy)
      (Nat.le_trans (Nat.le_max_left _ _) roomy) walks
    obtain ⟨count, stores, evicted, -⟩ := books
    have stats : m.stats = {} := by
      cases stats : m.stats with
      | mk evictions stores restores recomputations inserted =>
        rw [stats] at none count evicted back
        simp only at none count evicted back
        simp only [Stats.mk.injEq]
        omega
    rw [stats] at stores inserted
    rw [same, ← stores, stats]
    exact ⟨rfl, inserted⟩
  · omega

theorem tightOutput (reads : ReadsKnown .source [] (es.map Prod.snd))
    (tight : k < (envAbove steps).summary.maxPressure) :
    1 ≤ output.stats.evictions ∧ 1 ≤ output.stats.inserted := by
  obtain ⟨plan, m, made, walks, rfl, books, back, -⟩ :=
    allocatedBooks spells renames given (Nat.le_refl _) ok
  obtain ⟨-, ⟨roomy, -⟩ | ⟨-, two, rfl⟩⟩ := planMade made
  · omega
  · have some : m.stats.evictions ≠ 0 := by
      intro none
      have closed : ∀ v, ¬ (envAbove steps).Live v := by
        intro v live
        obtain ⟨r, range⟩ := live
        exact absurd (Renaming.openKnown renames reads range) List.not_mem_nil
      obtain ⟨live, pressure⟩ := quietWalks renames (initialStage _ _ steps) (Nat.le_refl _)
        (fun v live => absurd live (closed v)) walks none
      simp only [Env.summary] at live pressure tight
      omega
    have count := books.inserted
    simp only
    omega

end

theorem pressureIsThreshold (b : Block) (sound : b.Sound) (given : ∀ i ∈ b.values, i.inserted = false)
    (short : 11 * b.size < 4294967295) :
    ∃ summary, b.rename.result = .ok summary ∧ ∀ (k : Nat) (options : Options), 1 ≤ k → k ≤ 64 →
      (summary.maxPressure ≤ k →
        (b.allocate k options).2.result = .ok ⟨k, none, 0, {}⟩ ∧
          (b.allocate k options).2.block.numInserted = 0 ∧
          (b.allocate k options).2.block.handles = b.handles) ∧
      (ReadsKnown .source [] b.values → k < summary.maxPressure →
        ∀ output, (b.allocate k options).2.result = .ok output →
          1 ≤ output.stats.evictions ∧ 1 ≤ output.stats.inserted) := by
  obtain ⟨steps, renamed, renames, spells⟩ := b.renameOk sound given (by omega)
  have given' : ∀ e ∈ b.entries, e.2.inserted = false :=
    fun e inside => given e.2 (List.mem_map_of_mem inside)
  refine ⟨_, renamed, fun k options some few => ?_⟩
  have allocated : (b.allocate k options).2 =
      b.rename.block.allocateRenamed (envAbove steps).summary k options := by
    simp only [Block.allocate, renamed]
  rw [allocated]
  refine ⟨fun roomy => ?_, fun reads tight output ok => ?_⟩
  · have named := Renaming.renamedNames sound renames (by omega)
    obtain ⟨output, ok⟩ := roomyAllocates spells renames few named (by omega) roomy
    obtain ⟨rfl, none⟩ := roomyOutput spells renames given' ok roomy
    refine ⟨ok, none, ?_⟩
    have originals : ∀ i ∈ b.rename.block.values, i.inserted = false := by
      rw [Renaming.renamedValues spells]
      exact Renaming.renamesGiven renames given'
    rw [allocateHandles (Chain.spellsSound spells) originals _ k options none]
    exact Renaming.renamedHandles sound renames spells
  · exact tightOutput spells renames given' ok reads tight

def unreadAtPeak : Block :=
  let r := Reg.ofNat? .source
  .ofList [.loadI 1 8 (r 0), .loadI 2 4 (r 1), .loadI 3 2 (r 2), .loadI 4 1 (r 3),
    .ternary 5 .add (r 0) (r 1) (r 1), .ternary 6 .add (r 1) (r 2) (r 2), .store 7 (r 2) (r 0)]

theorem unreadAtPeakThreshold :
    unreadAtPeak.rename.result = .ok ⟨3, 6, 4⟩ ∧
      (unreadAtPeak.allocate 4 {}).2.result = .ok ⟨4, none, 0, {}⟩ ∧
      ∃ output, (unreadAtPeak.allocate 3 {}).2.result = .ok output ∧ 1 ≤ output.stats.evictions ∧
        1 ≤ output.stats.inserted := by
  obtain ⟨summary, renamed, threshold⟩ := pressureIsThreshold unreadAtPeak (Chain.ofListSound _)
    (by decide +kernel) (by decide +kernel)
  have ran : unreadAtPeak.rename.result = .ok ⟨3, 6, 4⟩ := by decide +kernel
  obtain rfl := Except.ok.inj (renamed.symm.trans ran)
  refine ⟨ran, ((threshold 4 {} (by decide) (by decide)).1 (by decide)).1, ?_⟩
  have ok : (unreadAtPeak.allocate 3 {}).2.result = .ok ⟨2, some ⟨2⟩, 0, ⟨3, 0, 0, 3, 3⟩⟩ := by
    decide +kernel
  exact ⟨_, ok, (threshold 3 {} (by decide) (by decide)).2 (by decide +kernel) (by decide) _ ok⟩

end Straightline.Allocation
