import Mathlib.Data.List.Pairwise
import Straightline.Proofs.Allocation.Moments

/-! Which register is taken. Of the registers that the instruction does not hold already, those whose
values are read farthest ahead are ranked by what becomes of the value: a constant can be made again, a
value that was stored needs no second store, and anything else has to be stored. Of equals in that the
farthest goes, and of equals in both the lowest. The distances are those of the block: what an
allocation notes of them is where the values are read. -/
namespace Straightline.Allocation
open Renaming (Step Renames envAbove)

namespace Victim
variable {a b c w : Victim} {vs : List Victim}

theorem betterIff : a.better b = true ↔ b.cost.rank < a.cost.rank ∨
    b.cost.rank = a.cost.rank ∧ b.nextUse.rank < a.nextUse.rank := by
  have same : a.cost = b.cost ↔ b.cost.rank = a.cost.rank := by
    cases a.cost <;> cases b.cost <;> simp [Cost.rank]
  simp [better, same]

def FirstBest (vs : List Victim) (w : Victim) : Prop :=
  ∃ before after, vs = before ++ w :: after ∧ (∀ x ∈ before, w.better x = true) ∧
    ∀ x ∈ after, x.better w = false

theorem firstBestCons (first : FirstBest vs w) (less : w.better a = true) : FirstBest (a :: vs) w := by
  obtain ⟨before, after, rfl, better, worse⟩ := first
  exact ⟨a :: before, after, rfl, List.forall_mem_cons.mpr ⟨less, better⟩, worse⟩

theorem firstBestLeads (first : FirstBest (a :: vs) w) : w = a ∨ w.better a = true := by
  obtain ⟨before, after, split, better, -⟩ := first
  rcases List.cons_eq_append_iff.mp split with ⟨rfl, same⟩ | ⟨rest, rfl, -⟩
  · exact .inl (List.cons.inj same).1
  · exact .inr (better a List.mem_cons_self)

theorem firstBestSkip (first : FirstBest (a :: vs) w) (worse : b.better a = false) :
    FirstBest (a :: b :: vs) w := by
  obtain ⟨before, after, split, better, others⟩ := first
  rcases List.cons_eq_append_iff.mp split with ⟨rfl, same⟩ | ⟨rest, rfl, rfl⟩
  · obtain ⟨rfl, rfl⟩ := List.cons.inj same
    exact ⟨[], b :: after, rfl, List.forall_mem_nil _, List.forall_mem_cons.mpr ⟨worse, others⟩⟩
  · obtain ⟨first, later⟩ := List.forall_mem_cons.mp better
    have second : w.better b = true := by
      rw [Bool.eq_false_iff, ne_eq, betterIff] at worse
      rw [betterIff] at first ⊢
      omega
    exact ⟨a :: b :: rest, after, rfl, List.forall_mem_cons.mpr
      ⟨first, List.forall_mem_cons.mpr ⟨second, later⟩⟩, others⟩

theorem bestFirst (best : Victim.best vs = some w) : FirstBest vs w := by
  cases vs with
  | nil => contradiction
  | cons v vs =>
    obtain rfl := Option.some.inj best
    induction vs generalizing v with
    | nil => exact ⟨[], [], rfl, List.forall_mem_nil _, List.forall_mem_nil _⟩
    | cons x vs ih =>
      rw [List.foldl_cons]
      split
      · rename_i more
        have first := ih x rfl
        refine firstBestCons first ?_
        rcases firstBestLeads first with same | better
        · rw [same]
          exact more
        · rw [betterIff] at more better ⊢
          omega
      · rename_i less
        exact firstBestSkip (ih v rfl) (Bool.eq_false_iff.mpr less)

end Victim

section
variable {plan : Plan} {n : Nat} {l : Ledger} {w : Victim} {c : PhysicalReg} {o : Occupant}

theorem victimsOrdered (l : Ledger) (plan : Plan) :
    ((l.contenders plan).filterMap l.victim).Pairwise fun x y => x.reg.number < y.reg.number := by
  have below : (Reg.below plan.usable).Pairwise fun p q => p.number < q.number := by
    rw [← List.pairwise_map (f := Reg.number), Reg.belowNumbers, List.take_range]
    exact List.pairwise_lt_range
  refine List.Pairwise.filterMap l.victim (fun p q less x found y found' => ?_)
    ((below.filter _).filter _)
  rw [(victimHeld found).1, (victimHeld found').1]
  exact less

theorem memCandidates : c ∈ l.candidates plan ↔
    c.number < plan.usable ∧ l.pinned.contains c = false := by
  rw [Ledger.candidates, List.mem_filter, Reg.memBelow]
  simp

theorem chosenLeads (best : Victim.best ((l.contenders plan).filterMap l.victim) = some w) :
    w.reg ∈ l.candidates plan ∧ l.holder w.reg = some ⟨w.value, w.nextUse⟩ ∧
      w.cost = (l.record w.value).cost ∧ ∀ c ∈ l.candidates plan,
        (l.nextUse c).rank ≤ w.nextUse.rank + plan.options.window.toNat := by
  obtain ⟨p, contends, victim⟩ := List.mem_filterMap.mp (bestMem best)
  obtain ⟨rfl, held⟩ := victimHeld victim
  obtain ⟨candidate, within⟩ := List.mem_filter.mp contends
  refine ⟨candidate, held, ?_, fun c inside => ?_⟩
  · rw [Ledger.victim, held, Option.map_some, Option.some.injEq] at victim
    rw [← victim]
  · have leads := farthestLeads l inside
    rw [NextUse.within, decide_eq_true_eq] at within
    have here : l.nextUse w.reg = w.nextUse := by rw [Ledger.nextUse, held]
    rw [here] at within
    omega

theorem chosenRanks (best : Victim.best ((l.contenders plan).filterMap l.victim) = some w)
    (candidate : c ∈ l.candidates plan) (held : l.holder c = some o)
    (near : ∀ c' ∈ l.candidates plan, (l.nextUse c').rank ≤ o.nextUse.rank + plan.options.window.toNat) :
    (l.record o.value).cost.rank < w.cost.rank ∨ (l.record o.value).cost.rank = w.cost.rank ∧
      (o.nextUse.rank < w.nextUse.rank ∨
        o.nextUse.rank = w.nextUse.rank ∧ w.reg.number ≤ c.number) := by
  have next : l.nextUse c = o.nextUse := by rw [Ledger.nextUse, held]
  have victim : l.victim c = some ⟨c, o.value, (l.record o.value).cost, o.nextUse⟩ := by
    rw [Ledger.victim, held, Option.map_some]
  have contends : c ∈ l.contenders plan := by
    refine List.mem_filter.mpr ⟨candidate, ?_⟩
    rw [NextUse.within, decide_eq_true_eq, next]
    -- The farthest next use is that of a candidate, or the least there is.
    have found := pickMem (fun a b : NextUse => a.rank < b.rank) ((l.candidates plan).map l.nextUse)
      (.read ⟨0, positionsBegin⟩)
    rcases List.mem_cons.mp found with least | attained
    · rw [Ledger.farthest, least]
      exact Nat.le_trans (Nat.sub_le _ _) (Nat.zero_le _)
    · obtain ⟨c', inside, last⟩ := List.mem_map.mp attained
      have bound := near c' inside
      rw [last] at bound
      rw [Ledger.farthest]
      omega
  have listed := List.mem_filterMap.mpr ⟨c, contends, victim⟩
  obtain ⟨before, after, split, better, worse⟩ := Victim.bestFirst best
  have ordered := victimsOrdered l plan
  rw [split] at listed ordered
  obtain ⟨-, ordered, -⟩ := List.pairwise_append.mp ordered
  rcases List.mem_append.mp listed with early | late
  · have more := Victim.betterIff.mp (better _ early)
    dsimp only at more
    omega
  · rcases List.mem_cons.mp late with rfl | late
    · exact .inr ⟨rfl, .inr ⟨rfl, Nat.le_refl _⟩⟩
    · have higher := (List.pairwise_cons.mp ordered).1 _ late
      have less := worse _ late
      rw [Bool.eq_false_iff, ne_eq, Victim.betterIff] at less
      dsimp only at higher less
      omega

end

def StoresTo (address : Option PhysicalReg) (w : Word) (code : List Instr) : Prop :=
  ∃ e ∈ code.zip code.tail, e.1.inserted = true ∧ e.1.opcode = .loadI ∧ e.1.constant = w ∧
    (e.1.operand .third).physical = address ∧ e.2.inserted = true ∧ e.2.opcode = .store ∧
    (e.2.operand .third).physical = address

instance (address : Option PhysicalReg) (w : Word) (code : List Instr) :
    Decidable (StoresTo address w code) :=
  inferInstanceAs (Decidable (∃ e ∈ code.zip code.tail, e.1.inserted = true ∧ e.1.opcode = .loadI ∧
    e.1.constant = w ∧ (e.1.operand .third).physical = address ∧ e.2.inserted = true ∧
    e.2.opcode = .store ∧ (e.2.operand .third).physical = address))

/-- The class of a value that is to leave its register: it is made by a `loadI` of `is`, it was stored
to its slot by the code so far, or neither. -/
def evictionClass (plan : Plan) (is : List Instr) (t : State) (v : VirtualReg) : Nat :=
  if ∃ i ∈ is, i.opcode = .loadI ∧ i.writtenReg .virtual = some (some v) then 2
  else if ∃ x ∈ t.values[v.number]?, ∃ w ∈ x.slot, StoresTo plan.address w t.block.values then 1
  else 0

def Candidate (plan : Plan) (h : Handle) (phase : Phase) (t : State) (c : PhysicalReg) : Prop :=
  c.number < plan.usable ∧ ∃ j, t.block.get (some h) = .ok j ∧
    ∀ slot ∈ phase.done, (j.operand slot).physical ≠ some c

/-- A register that may be taken holds `v`, whose first read still to come is at `q`. -/
structure Contends (plan : Plan) (is : List Instr) (p : Nat) (h : Handle) (phase : Phase) (t : State)
    (c : PhysicalReg) (v : VirtualReg) (q : Nat) : Prop where
  candidate : Candidate plan h phase t c
  held : ∃ u, t.registers[c.number]? = some (some ⟨v, u⟩)
  next : FirstValueRead is v (phase.since p) q

structure FollowsPolicy (plan : Plan) (is : List Instr) (p : Nat) (h : Handle) (phase : Phase)
    (t : State) (w : Victim) (q : Nat) : Prop where
  occupied : ∀ c, Candidate plan h phase t c → ∃ v q, Contends plan is p h phase t c v q
  victim : Contends plan is p h phase t w.reg w.value q
  far : ∀ c v q', Contends plan is p h phase t c v q' → q' ≤ q + plan.options.window.toNat
  best : ∀ c v q', Contends plan is p h phase t c v q' →
    (∀ c' v' q'', Contends plan is p h phase t c' v' q'' → q'' ≤ q' + plan.options.window.toNat) →
    evictionClass plan is t v < evictionClass plan is t w.value ∨
    evictionClass plan is t v = evictionClass plan is t w.value ∧
      (q' < q ∨ q' = q ∧ w.reg.number ≤ c.number)

section
variable {plan : Plan} {n p : Nat} {h : Handle} {i : Instr} {l m : Ledger} {phase : Phase}
  {v : VirtualReg} {c : PhysicalReg} {u : NextUse} {t : State} {s : Step} {past steps : List Step}
  {stretches : List Stretch} {groups : List Group}

theorem storesInside {line : Nat} {address : Option PhysicalReg} {w : Word} {code : List Instr}
    (inside : Group.code line address (.store w c) <:+: code) : StoresTo address w code := by
  obtain ⟨before, after, rfl⟩ := inside
  refine ⟨(.insertedLoadI line w address, .insertedStore line (some c) address), ?_, rfl, rfl, rfl, rfl,
    rfl, rfl, rfl⟩
  induction before with
  | nil => exact List.mem_cons_self
  | cons i before ih =>
    cases before with
    | nil => exact List.mem_cons_of_mem _ List.mem_cons_self
    | cons j before => exact List.mem_cons_of_mem _ ih

theorem groupInside {line : Nat} {address : Option PhysicalReg} {g : Group} (inside : g ∈ groups) :
    g.code line address <:+: groups.flatMap (Group.code line address) := by
  obtain ⟨before, after, rfl⟩ := List.append_of_mem inside
  rw [List.flatMap_append, List.flatMap_cons, ← List.append_assoc]
  exact List.infix_append _ _ _

theorem stretchInside {address : Option PhysicalReg} {x : Stretch} {g : Group}
    (listed : x ∈ stretches) (inside : g ∈ x.groups) :
    g.code x.instr.line address <:+: stretches.flatMap (Stretch.code address) := by
  obtain ⟨before, after, rfl⟩ := List.append_of_mem listed
  have here : g.code x.instr.line address <:+: x.code address :=
    (groupInside inside).trans (List.prefix_append _ _).isInfix
  rw [List.flatMap_append, List.flatMap_cons, ← List.append_assoc]
  exact here.trans (List.infix_append _ _ _)

theorem arrivesStored (midway : Midway plan n past (s :: steps) l) (point : phase.Wants s.instr)
    (arrives : Arrives plan s.handle s.instr l phase m) {w : Word}
    (slot : (m.record v).slot = some w) (rest : List Instr) :
    StoresTo plan.address w (m.done.map Prod.snd ++ rest) := by
  have sound := arrivesSound midway point arrives
  obtain ⟨stretches, laid, -⟩ := midway.laid
  obtain ⟨groups, -, puts, -⟩ := arrivesPuts midway point arrives
  obtain ⟨j, owner, rfl⟩ := (sound.saved.slots v w).mp slot
  have ordered := puts.ordered _ laid.ordered
  have stored : plan.slotAt j ∈ (stretches.flatMap Stretch.groups ++ groups).filterMap Group.stored := by
    rw [ordered.stores]
    exact List.mem_map_of_mem (List.mem_range.mpr (List.getElem?_eq_some_iff.mp owner).1)
  obtain ⟨g, inside, stores⟩ := List.mem_filterMap.mp stored
  rw [puts.done, laid.code]
  cases g with
  | load | remake => contradiction
  | store w p =>
    obtain rfl := Option.some.inj stores
    rcases List.mem_append.mp inside with old | new
    · rw [List.append_assoc]
      obtain ⟨x, listed, member⟩ := List.mem_flatMap.mp old
      exact storesInside ((stretchInside listed member).trans (List.prefix_append _ _).isInfix)
    · exact storesInside ((groupInside new).trans (List.infix_append _ _ _))

theorem arrivesConstant (midway : Midway plan n past (s :: steps) l) (point : phase.Wants s.instr)
    (arrives : Arrives plan s.handle s.instr l phase m) (held : m.holder c = some ⟨v, u⟩) :
    (m.record v).constant.isSome ↔ ∃ i ∈ (past ++ s :: steps).map Step.instr, i.opcode = .loadI ∧
      i.writtenReg .virtual = some (some v) := by
  have sound := arrivesSound midway point arrives
  obtain ⟨groups, -, puts, -⟩ := arrivesPuts midway point arrives
  rw [puts.constants, Option.isSome_iff_exists]
  simp only [midwayConstants midway, List.mem_map, exists_exists_and_eq_and, List.mem_append]
  constructor
  · rintro ⟨_, x, inside, opcode, -, written⟩
    exact ⟨x, .inl inside, opcode, written⟩
  · rintro ⟨x, inside | later, opcode, written⟩
    · exact ⟨_, x, inside, opcode, rfl, written⟩
    · -- Nothing is known of a value that is still to be written, so it is in no register.
      have listed : some v ∈ writtenRegs .virtual ((s :: steps).map Step.instr) :=
        List.mem_filterMap.mpr ⟨x.instr, List.mem_map_of_mem later, written⟩
      have home := (sound.tables.home v c).mpr ⟨u, held⟩
      rw [arrivesNew midway point arrives listed] at home
      contradiction

theorem arrivesClass (midway : Midway plan n past (s :: steps) l) (point : phase.Wants s.instr)
    (arrives : Arrives plan s.handle s.instr l phase m) (reflects : Reflects plan n t m)
    (held : m.holder c = some ⟨v, u⟩) :
    evictionClass plan ((past ++ s :: steps).map Step.instr) t v = (m.record v).cost.rank := by
  have sound := arrivesSound midway point arrives
  have kept := sound.saved.kept v
  have values : t.block.values = m.done.map Prod.snd ++ m.rest.map Prod.snd := by
    rw [Chain.spellsValues reflects.spells, List.map_append]
  have made := arrivesConstant midway point arrives held
  rw [evictionClass, Value.cost]
  cases constant : (m.record v).constant with
  | some c =>
    rw [constant] at made
    rw [if_pos (made.mp rfl)]
    rfl
  | none =>
    rw [constant] at made
    rw [if_neg (made.not.mp (by simp))]
    by_cases clean : (m.record v).status = .clean
    · obtain ⟨w, slot⟩ := Option.isSome_iff_exists.mp (kept.clean clean constant)
      have stores := arrivesStored midway point arrives slot (m.rest.map Prod.snd)
      rw [← values] at stores
      rw [if_pos ⟨_, (reflectsValue reflects).mpr ⟨(sound.tables.held c _ held).2, rfl⟩, w, slot, stores⟩]
      simp [clean, Cost.rank]
    · rw [if_neg]
      · simp [clean, Cost.rank]
      · rintro ⟨x, found, w, slot, -⟩
        obtain ⟨-, rfl⟩ := (reflectsValue reflects).mp found
        exact clean (kept.slot (by rw [slot]; rfl)).1

theorem arrivesCandidate {rest : List (Handle × Instr)} (point : phase.Wants i)
    (head : l.rest = (h, i) :: rest) (arrives : Arrives plan h i l phase m)
    (reflects : Reflects plan n t m) : Candidate plan h phase t c ↔ c ∈ m.candidates plan := by
  obtain ⟨j, -, rest', pinned⟩ := arrivesPins point head arrives
  have got : t.block.get (some h) = .ok j := Chain.getSpells (rest' ▸ reflects.spells)
  rw [memCandidates, Candidate, Bool.eq_false_iff, ne_eq, pinned, got]
  simp

theorem arrivesContends (midway : Midway plan n past (s :: steps) l) (point : phase.Wants s.instr)
    (arrives : Arrives plan s.handle s.instr l phase m) (reflects : Reflects plan n t m) {q : Nat} :
    Contends plan ((past ++ s :: steps).map Step.instr) past.length s.handle phase t c v q ↔
      c ∈ m.candidates plan ∧ ∃ u, m.holder c = some ⟨v, u⟩ ∧ u.rank = q := by
  have candidate := arrivesCandidate (c := c) point midway.stage.rest arrives reflects
  constructor
  · rintro ⟨able, ⟨u, found⟩, next⟩
    have inside := candidate.mp able
    have held := ((reflectsOccupant reflects).mp found).2
    have first := arrivesNext midway point arrives held (memCandidates.mp inside).2
    exact ⟨inside, u, held, firstValueReadUnique first next⟩
  · rintro ⟨inside, u, held, rfl⟩
    obtain ⟨usable, unpinned⟩ := memCandidates.mp inside
    exact ⟨candidate.mpr inside, ⟨u, (reflectsOccupant reflects).mpr ⟨usable, held⟩⟩,
      arrivesNext midway point arrives held unpinned⟩

theorem arrivesPolicy (midway : Midway plan n past (s :: steps) l) (point : phase.Wants s.instr)
    (arrives : Arrives plan s.handle s.instr l phase m) (reflects : Reflects plan n t m)
    (full : m.free = []) {w : Victim}
    (best : Victim.best ((m.contenders plan).filterMap m.victim) = some w) :
    FollowsPolicy plan ((past ++ s :: steps).map Step.instr) past.length s.handle phase t w
      w.nextUse.rank := by
  have sound := arrivesSound midway point arrives
  have contends := fun c v q => arrivesContends (c := c) (v := v) (q := q) midway point arrives reflects
  have noted : ∀ c v q, Contends plan ((past ++ s :: steps).map Step.instr) past.length s.handle phase t
      c v q → (m.nextUse c).rank = q := by
    intro c v q holds
    obtain ⟨-, u, held, rank⟩ := (contends c v q).mp holds
    rw [Ledger.nextUse, held, ← rank]
  have occupied : ∀ c ∈ m.candidates plan, ∃ v q,
      Contends plan ((past ++ s :: steps).map Step.instr) past.length s.handle phase t c v q := by
    intro c inside
    cases held : m.holder c with
    | some o => exact ⟨o.value, o.nextUse.rank, (contends c _ _).mpr ⟨inside, o.nextUse, held, rfl⟩⟩
    | none =>
      have spare := (sound.tables.empty c).mpr ⟨(memCandidates.mp inside).1, held⟩
      rw [full] at spare
      contradiction
  obtain ⟨candidate, held, cost, far⟩ := chosenLeads best
  refine ⟨fun c able => occupied c ((arrivesCandidate point midway.stage.rest arrives reflects).mp able),
    (contends _ _ _).mpr ⟨candidate, w.nextUse, held, rfl⟩, fun c v q holds => ?_,
    fun c v q holds near => ?_⟩
  · rw [← noted c v q holds]
    exact far c ((contends c v q).mp holds).1
  · obtain ⟨inside, u, held', rfl⟩ := (contends c v q).mp holds
    rw [arrivesClass midway point arrives reflects held', arrivesClass midway point arrives reflects held,
      ← cost]
    refine chosenRanks best inside held' fun c' inside' => ?_
    obtain ⟨v', q', holds'⟩ := occupied c' inside'
    rw [noted c' v' q' holds']
    exact near c' v' q' holds'

end

section
variable {plan : Plan} {n p : Nat} {b : Block} {es : List (Handle × Instr)} {steps : List Step}
  {h : Handle} {i : Instr} {phase : Phase} {t : State}

theorem momentChoice (few : plan.usable ≤ 64) (renames : Renames 0 es steps)
    (given : ∀ e ∈ es, e.2.inserted = false)
    (spells : b.Spells (steps.map fun s => (s.handle, s.instr)))
    (numbered : (envAbove steps).minted ≤ n) (moment : Moment plan n b p h i phase t) {w : Victim}
    (chosen : Work.chooseVictim plan ⟨h, i.line⟩ t = .ok w {t with log := .chosen w :: t.log}) :
    FollowsPolicy plan b.values p h phase t w w.nextUse.rank := by
  have full := moment.full
  have point := moment.wants
  obtain ⟨past, s, rest, l, m, rfl, rfl, rfl, rfl, midway, arrives, reflects⟩ :=
    momentLedger few renames given spells numbered moment
  rw [← reflects.free] at full
  have sound := arrivesSound midway point arrives
  have runs : Runs plan _ (Work.chooseVictim plan ⟨s.handle, s.instr.line⟩) m
      (fun w _ => Victim.best ((m.contenders plan).filterMap m.victim) = some w) fun _ _ => True :=
    runsChoose sound full (fun _ best => best) fun _ _ _ => trivial
  have ran := runs t reflects
  rw [chosen] at ran
  obtain ⟨-, -, best⟩ := ran
  rw [Renaming.renamedValues spells]
  exact arrivesPolicy midway point arrives reflects full best

theorem momentSpells (few : plan.usable ≤ 64) (renames : Renames 0 es steps)
    (given : ∀ e ∈ es, e.2.inserted = false)
    (spells : b.Spells (steps.map fun s => (s.handle, s.instr)))
    (numbered : (envAbove steps).minted ≤ n) (moment : Moment plan n b p h i phase t) :
    ∃ pre j post, t.block.Spells (pre ++ (h, j) :: post) := by
  have point := moment.wants
  obtain ⟨past, s, rest, l, m, rfl, rfl, rfl, rfl, midway, arrives, reflects⟩ :=
    momentLedger few renames given spells numbered moment
  obtain ⟨j, -, rest', -⟩ := arrivesPins point midway.stage.rest arrives
  exact ⟨m.done, j, _, rest' ▸ reflects.spells⟩

end

/-- Every eviction follows the policy, with next uses as they are in the block. Where a register is
taken and none was free, the one that is emptied belongs to a victim that does. What the events tell of
victims is a choice at such a moment, or the eviction of the victim chosen right before it; and the
eviction follows the choice, unless the work stops there. -/
theorem victimsFollowPolicy (b : Block) (sound : b.Sound) (given : ∀ i ∈ b.values, i.inserted = false)
    (short : 11 * b.size < 4294967295) (k : Nat) (options : Options) :
    ∃ summary, b.rename.result = .ok summary ∧
      (∀ plan p h i phase t c t', Plan.make k summary options = .ok plan →
        Moment plan summary.numVirtual b.rename.block p h i phase t →
        Work.takeRegister plan ⟨h, i.line⟩ t = .ok c t' →
        ∃ w q slots e, w.reg = c ∧ Vacates plan ⟨h, i.line⟩ t w slots e t' ∧
          FollowsPolicy plan b.rename.block.values p h phase t w q) ∧
      ∀ pre e post, (b.rename.block.allocateRenamed summary k options).events = pre ++ e :: post →
        e.taking = true →
        ∃ plan p h i phase t w q, Plan.make k summary options = .ok plan ∧
          Moment plan summary.numVirtual b.rename.block p h i phase t ∧
          FollowsPolicy plan b.rename.block.values p h phase t w q ∧
          let start := .started b.rename.block.size k summary.maxLive plan :: t.log.reverse
          ((∃ slots e' t' rest, Vacates plan ⟨h, i.line⟩ t w slots e' t' ∧
              pre ++ e :: post = start ++ .chosen w :: (slots ++ e' :: rest) ∧
              (e = .chosen w ∧ pre = start ∨ e = e' ∧ pre = start ++ .chosen w :: slots)) ∨
            e = .chosen w ∧ pre = start ∧
              ∃ stop t', Work.takeRegister plan ⟨h, i.line⟩ t = .error stop t') := by
  obtain ⟨steps, renamed, renames, spells⟩ := b.renameOk sound given (by omega)
  have given' : ∀ e ∈ b.entries, e.2.inserted = false :=
    fun e inside => given e.2 (List.mem_map_of_mem inside)
  refine ⟨_, renamed, fun plan p h i phase t c t' made moment takes => ?_,
    fun pre e post split taking => ?_⟩
  · have few := (planSound made).few
    obtain ⟨front, j, back, spelled⟩ := momentSpells few renames given' spells (Nat.le_refl _) moment
    rcases takeCases plan ⟨h, i.line⟩ moment.full spelled with
      ⟨w, slots, e, u, chosen, vacates⟩ | ⟨w, stop, u, -, failed, -⟩ | ⟨stop, u, new, failed, -⟩
    · have ended := vacates.takes
      rw [takes, EStateM.Result.ok.injEq] at ended
      obtain ⟨rfl, rfl⟩ := ended
      exact ⟨w, _, slots, e, rfl, vacates,
        momentChoice few renames given' spells (Nat.le_refl _) moment chosen⟩
    · rw [takes] at failed
      contradiction
    · rw [takes] at failed
      contradiction
  · obtain ⟨plan, p, h, i, phase, t, before, after, rest, made, moment, rfl, rfl, told⟩ :=
      takenMoment (Chain.spellsSound spells) split taking
    have few := (planSound made).few
    obtain ⟨front, j, back, spelled⟩ := momentSpells few renames given' spells (Nat.le_refl _) moment
    obtain ⟨w, chosen, cases⟩ := toldCases plan ⟨h, i.line⟩ moment.full spelled taking told
    have policy := momentChoice few renames given' spells (Nat.le_refl _) moment chosen
    refine ⟨plan, p, h, i, phase, t, w, _, made, moment, policy, ?_⟩
    rcases cases with ⟨slots, e', t', vacates, told⟩ | ⟨rfl, rfl, stopped⟩
    · have order : slots.reverse = slots := by
        rcases vacates.slot with rfl | ⟨slot, rfl⟩ <;> rfl
      refine .inl ?_
      rcases told with ⟨rfl, rfl, code, rfl⟩ | ⟨rfl, rfl⟩
      · refine ⟨slots, e', t', code.reverse ++ rest, vacates, ?_, .inl ⟨rfl, rfl⟩⟩
        simp [order]
      · refine ⟨slots, e, t', after.reverse ++ rest, vacates, ?_, .inr ⟨rfl, ?_⟩⟩ <;> simp [order]
    · exact .inr ⟨rfl, rfl, stopped⟩

theorem spilledSumFollowsPolicy :
    let events := (spilledSum.rename.block.allocateRenamed ⟨4, 6, 4⟩ 3 {}).events
    ∃ v c slot, events = events.take 21 ++ .evictedStored v c slot :: events.drop 22 ∧
      ∃ plan p h i phase t w q slots, Plan.make 3 ⟨4, 6, 4⟩ {} = .ok plan ∧
        Moment plan 6 spilledSum.rename.block p h i phase t ∧ w.value = v ∧ w.reg = c ∧
        FollowsPolicy plan spilledSum.rename.block.values p h phase t w q ∧ events.take 21 =
          .started spilledSum.rename.block.size 3 4 plan :: t.log.reverse ++ .chosen w :: slots := by
  intro events
  have renamed : spilledSum.rename.result = .ok ⟨4, 6, 4⟩ := by decide +kernel
  obtain ⟨summary, same, -, holds⟩ := victimsFollowPolicy spilledSum (Chain.ofListSound _)
    (by decide +kernel) (by decide +kernel) 3 {}
  obtain rfl : ⟨4, 6, 4⟩ = summary := Except.ok.inj (renamed.symm.trans same)
  have split : (spilledSum.rename.block.allocateRenamed ⟨4, 6, 4⟩ 3 {}).events =
      (spilledSum.rename.block.allocateRenamed ⟨4, 6, 4⟩ 3 {}).events.take 21 ++
        .evictedStored ⟨⟨3, by decide⟩⟩ ⟨0⟩ 32772 ::
          (spilledSum.rename.block.allocateRenamed ⟨4, 6, 4⟩ 3 {}).events.drop 22 := by decide +kernel
  obtain ⟨plan, p, h, i, phase, t, w, q, made, moment, policy,
    ⟨slots, e, t', rest, vacates, -, ⟨other, -⟩ | ⟨rfl, before⟩⟩ | ⟨other, -⟩⟩ := holds _ _ _ split rfl
  · cases other
  · obtain ⟨value, reg⟩ := Prod.mk.inj (Option.some.inj vacates.evicted)
    exact ⟨_, _, _, split, plan, p, h, i, phase, t, w, q, slots, made, moment, value.symm, reg.symm,
      policy, before⟩
  · cases other

end Straightline.Allocation
