import Straightline.Proofs.Allocation.Moments
import Straightline.Proofs.Allocation.Shift

/-! The address of the first spill slot decides where the slots are and nothing else. With another one
an allocation ends as it did, in the same block but for the addresses, as long as the addresses of the
slots that it gives out are in range. Otherwise it runs out of addresses. -/
namespace Straightline

def Instr.saves (i : Instr) : Bool := i.inserted && i.opcode == .store

def savedAt : List Instr → List Word
  | i :: j :: is => if j.saves then i.constant :: savedAt is else savedAt (j :: is)
  | _ => []

namespace Allocation
open Renaming (Step Renames envAbove)

/-- The code is stretches, then groups for the instruction behind them, then what is still as it was
given. The groups store to the first `count` slots. -/
structure Woven (plan : Plan) (count line : Nat) (is : List Instr) (stretches : List Stretch)
    (groups : List Group) (rest : List Instr) : Prop where
  code : is = stretches.flatMap (Stretch.code plan.address) ++
    (groups.flatMap (Group.code line plan.address) ++ rest)
  given : ∀ s ∈ stretches, s.instr.inserted = false
  untouched : ∀ i ∈ rest, i.inserted = false
  ordered : Ordered plan count (stretches.flatMap Stretch.groups ++ groups)
  remade : ∀ c p, .remake c p ∈ stretches.flatMap Stretch.groups ++ groups → p.number < plan.usable

structure Spilled (plan : Plan) (count : Nat) (is : List Instr) : Prop where
  stores : is.countP Instr.saves = count
  saved : savedAt is = (List.range count).map plan.slotAt
  addresses : ∀ i ∈ is, i.addresses plan.address = true → ∃ j < count, i.constant = plan.slotAt j

def Settles (plan : Plan) (b : Block) (n : Nat) (s : State) : Prop :=
  Work.allocateEach plan b.handles (State.initial b plan n) = .ok () s ∨
    ∃ h line, Work.allocateEach plan b.handles (State.initial b plan n) =
      .error (.error (.tooManyLive h line)) s

section
variable {address : Option PhysicalReg} {line : Nat} {is : List Instr} {i : Instr}
  {stretches : List Stretch}

theorem givenPlain (given : i.inserted = false) : i.saves = false := by simp [Instr.saves, given]

theorem savedSkip (i : Instr) (plain : ∀ j ∈ is.head?, j.saves = false) :
    savedAt (i :: is) = savedAt is := by
  cases is with
  | nil => rfl
  | cons j is =>
    rw [savedAt, plain j rfl]
    rfl

theorem savedGiven (given : ∀ i ∈ is, i.inserted = false) : savedAt is = [] := by
  induction is with
  | nil => rfl
  | cons i is ih =>
    obtain ⟨-, later⟩ := List.forall_mem_cons.mp given
    rw [savedSkip i fun j first => givenPlain (later j (List.mem_of_mem_head? first)), ih later]

theorem groupsPlain (line : Nat) (address : Option PhysicalReg) (groups : List Group)
    (plain : ∀ j ∈ is.head?, j.saves = false) :
    ∀ j ∈ (groups.flatMap (Group.code line address) ++ is).head?, j.saves = false := by
  cases groups with
  | nil => exact plain
  | cons g groups => cases g <;> simp [Group.code, Instr.saves]

theorem savedGroups (groups : List Group) (plain : ∀ j ∈ is.head?, j.saves = false) :
    savedAt (groups.flatMap (Group.code line address) ++ is) =
      groups.filterMap Group.stored ++ savedAt is := by
  induction groups with
  | nil => rfl
  | cons g groups ih =>
    have next := groupsPlain line address groups plain
    rw [List.flatMap_cons, List.append_assoc]
    cases g with
    | store slot p => exact congrArg (slot :: ·) ih
    | load slot p => exact (savedSkip (.insertedLoad line address (some p)) next).trans ih
    | remake constant p => exact (savedSkip (.insertedLoadI line constant (some p)) next).trans ih

theorem stretchesPlain (given : ∀ s ∈ stretches, s.instr.inserted = false)
    (plain : ∀ j ∈ is.head?, j.saves = false) :
    ∀ j ∈ (stretches.flatMap (Stretch.code address) ++ is).head?, j.saves = false := by
  cases stretches with
  | nil => exact plain
  | cons s stretches =>
    rw [List.flatMap_cons, Stretch.code, List.append_assoc, List.append_assoc]
    refine groupsPlain s.instr.line address s.groups fun j first => ?_
    obtain rfl : s.instr = j := Option.some.inj first
    exact givenPlain (given s List.mem_cons_self)

theorem savedStretches (given : ∀ s ∈ stretches, s.instr.inserted = false)
    (plain : ∀ j ∈ is.head?, j.saves = false) :
    savedAt (stretches.flatMap (Stretch.code address) ++ is) =
      (stretches.flatMap Stretch.groups).filterMap Group.stored ++ savedAt is := by
  induction stretches with
  | nil => rfl
  | cons s stretches ih =>
    obtain ⟨here, later⟩ := List.forall_mem_cons.mp given
    have next : ∀ j ∈ ([s.instr] ++ (stretches.flatMap (Stretch.code address) ++ is)).head?,
        j.saves = false := by
      intro j first
      obtain rfl : s.instr = j := Option.some.inj first
      exact givenPlain here
    rw [List.flatMap_cons, Stretch.code, List.append_assoc, List.append_assoc, savedGroups s.groups next,
      List.singleton_append, savedSkip s.instr (stretchesPlain later plain), ih later, List.flatMap_cons,
      List.filterMap_append, List.append_assoc]

theorem groupsCount (line : Nat) (address : Option PhysicalReg) (groups : List Group) :
    (groups.flatMap (Group.code line address)).countP Instr.saves =
      (groups.filterMap Group.stored).length := by
  induction groups with
  | nil => rfl
  | cons g groups ih =>
    rw [List.flatMap_cons, List.countP_append, ih]
    cases g with
    | store slot p => exact Nat.add_comm 1 _
    | load | remake => exact Nat.zero_add _

theorem stretchesCount (address : Option PhysicalReg) (given : ∀ s ∈ stretches, s.instr.inserted = false) :
    (stretches.flatMap (Stretch.code address)).countP Instr.saves =
      ((stretches.flatMap Stretch.groups).filterMap Group.stored).length := by
  induction stretches with
  | nil => rfl
  | cons s stretches ih =>
    obtain ⟨here, later⟩ := List.forall_mem_cons.mp given
    rw [List.flatMap_cons, List.countP_append, ih later, Stretch.code, List.countP_append, groupsCount,
      List.countP_singleton, givenPlain here, List.flatMap_cons, List.filterMap_append, List.length_append]
    rfl

end

section
variable {plan : Plan} {n count line : Nat} {is rest : List Instr} {i : Instr} {stretches : List Stretch}
  {groups : List Group} {b : Block} {es : List (Handle × Instr)} {steps : List Step} {s : State}
  {l m : Ledger} {c : Word} {p : PhysicalReg}

theorem wovenCount (woven : Woven plan count line is stretches groups rest) :
    is.countP Instr.saves = count := by
  have none : rest.countP Instr.saves = 0 :=
    List.countP_eq_zero.mpr fun i inside => by simp [givenPlain (woven.untouched i inside)]
  rw [woven.code, List.countP_append, List.countP_append, stretchesCount _ woven.given, groupsCount, none,
    Nat.add_zero, ← List.length_append, ← List.filterMap_append, woven.ordered.stores, List.length_map,
    List.length_range]

theorem wovenSaved (woven : Woven plan count line is stretches groups rest) :
    savedAt is = (List.range count).map plan.slotAt := by
  have plain : ∀ j ∈ rest.head?, j.saves = false :=
    fun j first => givenPlain (woven.untouched j (List.mem_of_mem_head? first))
  rw [woven.code, savedStretches woven.given (groupsPlain line plan.address groups plain),
    savedGroups groups plain, savedGiven woven.untouched, List.append_nil, ← List.filterMap_append,
    woven.ordered.stores]

theorem wovenAddresses (sound : plan.Sound) (woven : Woven plan count line is stretches groups rest)
    (inside : i ∈ is) (addresses : i.addresses plan.address = true) :
    ∃ j < count, i.constant = plan.slotAt j := by
  simp only [Instr.addresses, Bool.and_eq_true, beq_iff_eq] at addresses
  obtain ⟨⟨⟨inserted, opcode⟩, -⟩, register⟩ := addresses
  have member : ∃ line, ∃ g ∈ stretches.flatMap Stretch.groups ++ groups,
      i ∈ Group.code line plan.address g := by
    rw [woven.code, List.mem_append, List.mem_append] at inside
    rcases inside with early | late | untouched
    · obtain ⟨s, listed, inside⟩ := List.mem_flatMap.mp early
      rcases List.mem_append.mp inside with code | last
      · obtain ⟨g, present, inside⟩ := List.mem_flatMap.mp code
        exact ⟨_, g, List.mem_append_left _ (List.mem_flatMap.mpr ⟨s, listed, present⟩), inside⟩
      · rw [List.mem_singleton.mp last, woven.given s listed] at inserted
        contradiction
    · obtain ⟨g, present, inside⟩ := List.mem_flatMap.mp late
      exact ⟨_, g, List.mem_append_right _ present, inside⟩
    · rw [woven.untouched i untouched] at inserted
      contradiction
  have numbered : ∀ w ∈ (stretches.flatMap Stretch.groups ++ groups).filterMap Group.stored,
      ∃ j < count, w = plan.slotAt j := by
    intro w stored
    rw [woven.ordered.stores] at stored
    obtain ⟨j, below, rfl⟩ := List.mem_map.mp stored
    exact ⟨j, List.mem_range.mp below, rfl⟩
  obtain ⟨line, g, listed, inside⟩ := member
  cases g with
  | store slot p =>
    refine numbered _ (List.mem_filterMap.mpr ⟨_, listed, ?_⟩)
    rcases List.mem_pair.mp inside with rfl | rfl
    · rfl
    · contradiction
  | load slot p =>
    obtain ⟨m, found⟩ := List.getElem?_of_mem listed
    have stored := woven.ordered.loads m slot p found
    rcases List.mem_pair.mp inside with rfl | rfl
    · refine numbered slot ?_
      obtain ⟨g, early, same⟩ := List.mem_filterMap.mp stored
      exact List.mem_filterMap.mpr ⟨g, List.mem_of_mem_take early, same⟩
    · contradiction
  | remake constant p =>
    obtain rfl := List.mem_singleton.mp inside
    have below := woven.remade constant p listed
    exact absurd (sound.address p register.symm) (Nat.ne_of_lt below)

theorem servedRemade (served : l.Served plan i groups) (listed : .remake c p ∈ groups) :
    p.number < plan.usable := (served _ listed).1

theorem laidRemade (laid : Laid plan l stretches) (listed : .remake c p ∈ stretches.flatMap Stretch.groups) :
    p.number < plan.usable := by
  obtain ⟨x, inside, listed⟩ := List.mem_flatMap.mp listed
  exact servedRemade (laid.served x inside) listed

theorem arrivesWoven {past : List Step} {now : Step} {phase : Phase}
    (midway : Midway plan n past (now :: steps) l) (point : phase.Wants now.instr)
    (arrives : Arrives plan now.handle now.instr l phase m) (reflects : Reflects plan n s m) :
    ∃ stretches groups rest, Woven plan m.owners.length now.instr.line s.block.values stretches groups
      rest := by
  obtain ⟨es, renames, given⟩ := midway.renames
  obtain ⟨stretches, laid, -⟩ := midway.laid
  obtain ⟨groups, j, puts, served⟩ := arrivesPuts midway point arrives
  obtain ⟨k, houses, behind, -⟩ := arrivesPins point midway.stage.rest arrives
  obtain ⟨here, later⟩ := List.forall_mem_cons.mp (Renaming.renamesGiven renames given)
  refine ⟨stretches, groups, k :: steps.map Step.instr, ?_, laid.given, ?_, puts.ordered _ laid.ordered,
    fun c p listed => ?_⟩
  · rw [Chain.spellsValues reflects.spells, behind, List.map_append, puts.done, laid.code,
      List.append_assoc, List.map_cons, List.map_map]
    rfl
  · exact List.forall_mem_cons.mpr ⟨houses.inserted.trans here, later⟩
  · rcases List.mem_append.mp listed with early | late
    · exact laidRemade laid early
    · exact servedRemade served late

section
variable {h g : Handle} {site : Site} {slots : List Slot}

theorem unresolvedCrowded
    (unresolved : Unresolved plan n site i (.error (.tooManyLive g line)) slots l m) :
    ∃ done slot later, slots = done ++ slot :: later ∧ Resolves plan site i done l m := by
  induction unresolved with
  | @here slot slots v l m virtual away stops =>
    cases stops
    exact ⟨[], slot, slots, rfl, .nil l⟩
  | @later slot slots v p l m k virtual fetches rest ih =>
    obtain ⟨done, wanted, later, rfl, resolves⟩ := ih
    exact ⟨slot :: done, wanted, later, rfl, .cons virtual fetches resolves⟩

theorem blockedCrowded (blocked : Blocked plan n h i l (.error (.tooManyLive g line)) m) :
    ∃ phase : Phase, phase.Wants i ∧ Arrives plan h i l phase m := by
  cases blocked with
  | reading unresolved =>
    obtain ⟨done, slot, later, split, resolves⟩ := unresolvedCrowded unresolved
    exact ⟨.reading done, ⟨slot, later, split⟩, .reading resolves⟩
  | writing reads writes stops =>
    cases stops
    exact ⟨.writing, by simp [Phase.Wants, writes], .writing reads⟩

theorem failsCrowded {past : List Step} (midway : Midway plan n past steps l)
    (fails : Fails plan n (.error (.tooManyLive g line)) steps l m) :
    ∃ (past : List Step) (now : Step) (later : List Step) (l : Ledger) (phase : Phase),
      Midway plan n past (now :: later) l ∧ phase.Wants now.instr ∧
        Arrives plan now.handle now.instr l phase m := by
  induction fails generalizing past with
  | @here now steps l m blocked =>
    obtain ⟨phase, point, arrives⟩ := blockedCrowded blocked
    exact ⟨past, now, steps, l, phase, midway, point, arrives⟩
  | later crosses rest ih => exact ih (crossesMidway midway crosses)

end

theorem wovenSpilled (sound : plan.Sound) (woven : Woven plan count line is stretches groups rest) :
    Spilled plan count is :=
  ⟨wovenCount woven, wovenSaved woven, fun _ => wovenAddresses sound woven⟩

theorem settlesSpilled (plans : plan.Sound) (renames : Renames 0 es steps)
    (given : ∀ e ∈ es, e.2.inserted = false)
    (spells : b.Spells (steps.map fun s => (s.handle, s.instr)))
    (numbered : (envAbove steps).minted ≤ n) (named : n ≤ Naming.virtual.limit)
    (settles : Settles plan b n s) :
    ∃ count, s.nextAddress.toNat = plan.options.base.toNat + slotSize * count ∧
      Spilled plan count s.block.values := by
  have handles : b.handles = steps.map Step.handle := by
    rw [Chain.spellsHandles spells, List.map_map]
    rfl
  have ends := runsAllocate plans renames (initialStage plan n steps) numbered (State.initial b plan n)
    (initialReflects spells)
  rw [← handles] at ends
  rcases settles with ended | ⟨h, line, stuck⟩
  · rw [ended] at ends
    obtain ⟨m, reflects, walks, stage⟩ := ends
    obtain ⟨stretches, laid⟩ := walksLaid renames given (initialStage plan n steps) numbered walks
      (initialLaid plan steps)
    have woven : Woven plan m.owners.length 0 s.block.values stretches [] [] := by
      refine ⟨?_, laid.given, List.forall_mem_nil _, ?_, fun c p listed => ?_⟩
      · have spelled := reflects.spells
        rw [stage.rest, List.map_nil, List.append_nil] at spelled
        rw [Chain.spellsValues spelled, laid.code]
        simp
      · rw [List.append_nil]
        exact laid.ordered
      · rw [List.append_nil] at listed
        exact laidRemade laid listed
    exact ⟨m.owners.length, reflects.next, wovenSpilled plans woven⟩
  · rw [stuck] at ends
    obtain ⟨m, reflects, fails | more⟩ := ends
    · obtain ⟨past, now, later, l, phase, midway, point, arrives⟩ :=
        failsCrowded (initialMidway plan renames given numbered) fails
      obtain ⟨stretches, groups, rest, woven⟩ := arrivesWoven midway point arrives reflects
      exact ⟨m.owners.length, reflects.next, wovenSpilled plans woven⟩
    · exact absurd more (Nat.not_lt.mpr named)

end

def addressRegister (summary : Renaming.Summary) (k : Nat) : Option PhysicalReg :=
  if k < summary.maxPressure then Reg.ofNat? .physical (k - 1) else none

/-- The allocation `high` ends as `low` does, in the same block but for the addresses of the spill
slots, which are `base` higher. There are `count` of them, one next to the other. -/
structure Raised (address : Option PhysicalReg) (base : Word) (count : Nat) (low high : Allocation) :
    Prop where
  result : high.result = low.result
  entries : high.block.entries = low.block.entries.map fun e => (e.1, e.2.shift address base)
  saved : (savedAt high.block.values).map UInt32.toNat =
    (List.range count).map fun j => base.toNat + 4 * j
  addresses : ∀ i ∈ high.block.values, i.addresses address = true →
    ∃ j < count, i.constant.toNat = base.toNat + 4 * j

section
variable {plan : Plan} {n k : Nat} {b : Block} {es : List (Handle × Instr)} {steps : List Step}
  {summary : Renaming.Summary} {options : Options} {s : State}

theorem planAddress (made : Plan.make k summary options = .ok plan) :
    plan.address = addressRegister summary k := by
  obtain ⟨-, ⟨roomy, rfl⟩ | ⟨tight, -, rfl⟩⟩ := planMade made
  · rw [addressRegister, if_neg (Nat.not_lt.mpr roomy)]
  · rw [addressRegister, if_pos tight]

theorem planRaised (made : Plan.make k summary {options with base := 0} = .ok plan) :
    Plan.make k summary options = .ok {plan with options} := by
  unfold Plan.make at made ⊢
  split at made
  · contradiction
  split at made
  · contradiction
  split at made
  · cases made
    simp [*]
  split at made
  · contradiction
  · cases made
    simp [*]

theorem mapShiftGiven (address : Option PhysicalReg) (d : Word) {es : List (Handle × Instr)}
    (given : ∀ e ∈ es, e.2.inserted = false) :
    (es.map fun e => (e.1, e.2.shift address d)) = es := by
  refine (List.map_congr_left fun e inside => ?_).trans (List.map_id es)
  rw [Instr.shiftGiven (given e inside)]
  rfl

theorem initialCoupled (zero : plan.options.base = 0) (sound : b.Sound)
    (given : ∀ e ∈ b.entries, e.2.inserted = false) :
    Coupled (shifting plan options.base b.handles) (State.initial b plan n)
      (State.initial b {plan with options} n) := by
  have spells := Chain.soundSpells sound
  have shifted : Shifted plan options.base b.handles b b := by
    refine ⟨sound, fun h inside => ?_, ?_, rfl⟩
    · rw [Chain.spellsHandles spells] at inside
      obtain ⟨e, listed, rfl⟩ := List.mem_map.mp inside
      exact ⟨e.2, listed, given e listed⟩
    · rwa [mapShiftGiven plan.address options.base given]
  have coupled := @Coupled.mk (shifting plan options.base b.handles) (State.initial b plan n) b [] shifted
    trivial (fun p inside => Reg.memBelow.mp inside) fun v x p found home => by
      simp only [State.initial, Array.getElem?_replicate] at found
      split at found
      · obtain rfl := Option.some.inj found
        contradiction
      · contradiction
  simp only [State.initial, shifting, zero, UInt32.zero_add, Array.map_replicate] at coupled ⊢
  exact coupled

theorem plannedSettles (spells : b.Spells (steps.map fun s => (s.handle, s.instr)))
    (renames : Renames 0 es steps) (few : k ≤ 64) (named : (envAbove steps).minted ≤ Naming.virtual.limit)
    (room : options.base.toNat + 4 * (envAbove steps).minted ≤ 4294967295)
    (made : Plan.make k (envAbove steps).summary options = .ok plan)
    (reserved : reserve (envAbove steps).minted 1 = .ok ()) :
    ∃ s, Settles plan b (envAbove steps).minted s := by
  cases ended : Work.allocateEach plan b.handles (State.initial b plan (envAbove steps).minted) with
  | ok _ s => exact ⟨s, .inl ended⟩
  | error stop s => ?_
  have stopped : (b.allocateRenamed (envAbove steps).summary k options).result = .error stop := by
    rw [allocatedError (Chain.spellsSound spells) made reserved ended]
  obtain ⟨-, ⟨roomy, -⟩ | ⟨tight, two, -⟩⟩ := planMade made
  · have positive : k ≠ 0 := by
      rintro rfl
      simp [Plan.make] at made
    have ends : ∃ output, (b.allocateRenamed (envAbove steps).summary k options).result = .ok output :=
      roomyAllocates spells renames few named positive roomy
    obtain ⟨output, ok⟩ := ends
    rw [stopped] at ok
    contradiction
  · have ends := tightAllocates spells renames few named two tight room
    split at ends
    · rename_i e refused
      rw [stopped, Except.error.injEq] at ends
      split at refused
      · obtain ⟨x, -, rfl⟩ := Option.map_eq_some_iff.mp refused
        exact ⟨s, .inr ⟨_, _, ends ▸ ended⟩⟩
      · contradiction
    · obtain ⟨output, ok⟩ := ends
      rw [stopped] at ok
      contradiction

theorem baseBlind (same : plan.options = {options with base := 0}) (hs : List Handle) :
    Work.allocateEach {plan with options} hs = Work.allocateEach plan hs := by
  obtain ⟨usable, address, _⟩ := plan
  obtain rfl := same
  rfl

theorem endsOk {α : Type} {c : Coupling} {x y : Work α} {a : α} {s' t : State}
    (ends : Ends c x y s t) (ok : x s = .ok a s') :
    s'.Fits c.shift ∧ (∃ t', y t = .ok a t' ∧ Coupled c s' t') ∨
      ¬ s'.Fits c.shift ∧ ∃ t', y t = .error (.fault .spillAddressOverflow) t' := by
  cases ends with
  | ok first second fits coupled =>
    rw [ok, EStateM.Result.ok.injEq] at first
    obtain ⟨rfl, rfl⟩ := first
    exact .inl ⟨fits, _, second, coupled⟩
  | error first second stops fits coupled =>
    rw [ok] at first
    contradiction
  | exhausted second large => exact .inr ⟨leavesOk ok ▸ large, _, second⟩

theorem endsError {α : Type} {c : Coupling} {x y : Work α} {e : Stop} {s' t : State}
    (ends : Ends c x y s t) (failed : x s = .error e s') :
    s'.Fits c.shift ∧ (∃ f t', y t = .error f t' ∧ c.stops e f ∧ Coupled c s' t') ∨
      ¬ s'.Fits c.shift ∧ ∃ t', y t = .error (.fault .spillAddressOverflow) t' := by
  cases ends with
  | ok first second fits coupled =>
    rw [failed] at first
    contradiction
  | error first second stops fits coupled =>
    rw [failed, EStateM.Result.error.injEq] at first
    obtain ⟨rfl, rfl⟩ := first
    exact .inl ⟨fits, _, _, second, stops, coupled⟩
  | exhausted second large => exact .inr ⟨leavesError failed ▸ large, _, second⟩

theorem shiftSaves (address : Option PhysicalReg) (d : Word) (i : Instr) :
    (i.shift address d).saves = i.saves := by
  unfold Instr.shift
  split <;> rfl

theorem shiftedRaised {low high : Allocation} {t : State} {count count' : Nat}
    (room : options.base.toNat + slotSize * count < 4294967296)
    (shifted : Shifted plan options.base b.handles s.block t.block) (result : high.result = low.result)
    (lowBlock : low.block = s.block) (highBlock : high.block = t.block)
    (spilled : Spilled plan count s.block.values)
    (spilled' : Spilled {plan with options} count' t.block.values) :
    Raised plan.address options.base count low high := by
  have entries : t.block.entries =
      s.block.entries.map fun e => (e.1, e.2.shift plan.address options.base) :=
    Chain.spellsEntries shifted.spells
  have values : t.block.values = s.block.values.map (Instr.shift plan.address options.base) := by
    rw [Chain.values, entries, Chain.values, List.map_map, List.map_map]
    rfl
  obtain rfl : count' = count := by
    rw [← spilled.stores, ← spilled'.stores, values, List.countP_map]
    congr 1
    exact funext fun i => shiftSaves plan.address options.base i
  have number : ∀ j < count', (Plan.slotAt {plan with options} j).toNat = options.base.toNat + 4 * j := by
    intro j below
    refine slotNumber (Nat.lt_of_le_of_lt (Nat.add_le_add_left ?_ _) room)
    exact Nat.mul_le_mul_left _ (Nat.le_of_lt below)
  refine ⟨result, by rw [lowBlock, highBlock, entries], ?_, fun i inside addresses => ?_⟩
  · rw [highBlock, spilled'.saved, List.map_map]
    exact List.map_congr_left fun j inside => number j (List.mem_range.mp inside)
  · rw [highBlock] at inside
    obtain ⟨j, below, same⟩ := spilled'.addresses i inside addresses
    exact ⟨j, below, by rw [same, number j below]⟩

theorem initialEnds (plans : plan.Sound) (same : plan.options = {options with base := 0})
    (sound : b.Sound) (given : ∀ e ∈ b.entries, e.2.inserted = false) (n : Nat) :
    Ends (shifting plan options.base b.handles) (Work.allocateEach plan b.handles)
      (Work.allocateEach {plan with options} b.handles) (State.initial b plan n)
      (State.initial b {plan with options} n) := by
  have zero : plan.options.base = 0 := by rw [same]
  have fits : (State.initial b plan n).Fits options.base := by
    have bound := options.base.toNat_lt
    simp only [State.Fits, State.initial, zero, UInt32.toNat_zero]
    omega
  rw [baseBlind same]
  exact (agreesSame (shiftingLaws plans options.base b.handles) fun h inside => ⟨rfl, inside⟩).ends
    _ _ (initialCoupled zero sound given) fits

theorem settlesBoth (sound : b.Sound) (made : Plan.make k summary {options with base := 0} = .ok plan)
    (reserved : reserve summary.numVirtual 1 = .ok ())
    (ends : Ends (shifting plan options.base b.handles) (Work.allocateEach plan b.handles)
      (Work.allocateEach {plan with options} b.handles) (State.initial b plan summary.numVirtual)
      (State.initial b {plan with options} summary.numVirtual))
    (settles : Settles plan b summary.numVirtual s) :
    let low := b.allocateRenamed summary k {options with base := 0}
    let high := b.allocateRenamed summary k options
    low.block = s.block ∧ (∀ f, low.result ≠ .error (.fault f)) ∧
      (s.Fits options.base ∧ (∃ t, Settles {plan with options} b summary.numVirtual t ∧
          Shifted plan options.base b.handles s.block t.block ∧ high.block = t.block ∧
          high.result = low.result) ∨
        ¬ s.Fits options.base ∧ high.result = .error (.fault .spillAddressOverflow)) := by
  intro low high
  have shifted : ∀ t, Coupled (shifting plan options.base b.handles) s t →
      Shifted plan options.base b.handles s.block t.block := by
    intro t coupled
    cases coupled with
    | mk blocks => exact blocks
  have highError : ∀ stop t, Work.allocateEach {plan with options} b.handles
      (State.initial b {plan with options} summary.numVirtual) = .error stop t → high = _ :=
    fun stop t ended => allocatedError sound (planRaised made) reserved ended
  rcases settles with ok | ⟨h, line, stuck⟩
  · have lowOk : low = _ := allocatedOk sound made reserved ok
    refine ⟨by rw [lowOk], fun f faulted => (by rw [lowOk] at faulted; cases faulted), ?_⟩
    rcases endsOk ends ok with ⟨fit, t, ok', coupled⟩ | ⟨large, t, ended⟩
    · have highOk : high = _ := allocatedOk sound (planRaised made) reserved ok'
      have output : t.output {plan with options} = s.output plan := by
        cases coupled
        rfl
      exact .inl ⟨fit, t, .inl ok', shifted t coupled, by rw [highOk], by rw [highOk, lowOk, output]⟩
    · exact .inr ⟨large, by rw [highError _ t ended]⟩
  · have lowError : low = _ := allocatedError sound made reserved stuck
    refine ⟨by rw [lowError], fun f faulted => (by rw [lowError] at faulted; cases faulted), ?_⟩
    rcases endsError ends stuck with ⟨fit, _, t, stuck', rfl, coupled⟩ | ⟨large, t, ended⟩
    · exact .inl ⟨fit, t, .inr ⟨h, line, stuck'⟩, shifted t coupled, by rw [highError _ t stuck'],
        by rw [highError _ t stuck', lowError]⟩
    · exact .inr ⟨large, by rw [highError _ t ended]⟩

theorem plannedRaised (sound : b.Sound) (spells : b.Spells (steps.map fun s => (s.handle, s.instr)))
    (renames : Renames 0 es steps) (given : ∀ e ∈ es, e.2.inserted = false) (few : k ≤ 64)
    (named : (envAbove steps).minted ≤ Naming.virtual.limit)
    (room : 4 * (envAbove steps).minted ≤ 4294967295)
    (made : Plan.make k (envAbove steps).summary {options with base := 0} = .ok plan) :
    let low := b.allocateRenamed (envAbove steps).summary k {options with base := 0}
    let high := b.allocateRenamed (envAbove steps).summary k options
    let count := low.block.values.countP Instr.saves
    (∀ f, low.result ≠ .error (.fault f)) ∧
      (options.base.toNat + 4 * count ≤ 4294967295 →
        Raised plan.address options.base count low high) ∧
      (4294967295 < options.base.toNat + 4 * count →
        high.result = .error (.fault .spillAddressOverflow)) := by
  intro low high count
  have reserved : reserve (envAbove steps).minted 1 = .ok () := by
    have limit : Naming.virtual.limit < 9223372036854775808 := by decide
    rw [reserve, Nat.mul_one, if_pos (Nat.lt_of_le_of_lt named limit)]
  have plans := planSound made
  have same := planOptions made
  have untouched : ∀ e ∈ b.entries, e.2.inserted = false := by
    have all := Renaming.renamesGiven renames given
    rw [← Renaming.renamedValues spells] at all
    exact fun e inside => all e.2 (List.mem_map_of_mem inside)
  have ends := initialEnds plans same sound untouched (envAbove steps).minted
  obtain ⟨s, settles⟩ := plannedSettles spells renames few named (by simpa using room) made reserved
  obtain ⟨stores, next, spilled⟩ := settlesSpilled plans renames given spells (Nat.le_refl _) named settles
  have fits : s.Fits options.base ↔ options.base.toNat + 4 * stores ≤ 4294967295 := by
    rw [State.Fits, next, same, UInt32.toNat_zero, slotSize]
    omega
  obtain ⟨lowBlock, sane, both⟩ := settlesBoth sound made reserved ends settles
  have counted : count = stores := by rw [← spilled.stores, ← lowBlock]
  rw [counted]
  refine ⟨sane, ?_⟩
  rcases both with ⟨fit, t, settles', shifted, highBlock, result⟩ | ⟨large, exhausted⟩
  · have plans' : Plan.Sound {plan with options} := ⟨plans.few, plans.address⟩
    obtain ⟨stores', -, spilled'⟩ := settlesSpilled plans' renames given spells (Nat.le_refl _) named
      settles'
    refine ⟨fun _ => ?_, fun large => absurd (fits.mp fit) (Nat.not_le.mpr large)⟩
    exact shiftedRaised (Nat.lt_succ_of_le (fits.mp fit)) shifted result lowBlock highBlock spilled spilled'
  · exact ⟨fun fit => absurd (fits.mpr fit) large, fun _ => exhausted⟩

theorem planRefused {stop : Stop} (few : k ≤ 64) (refused : Plan.make k summary options = .error stop)
    (other : Options) : stop = .error (.tooFewRegisters k summary.maxLive) ∧
      Plan.make k summary other = .error stop := by
  unfold Plan.make at refused ⊢
  rw [if_neg (Nat.not_lt.mpr few)] at refused ⊢
  split at refused
  · cases refused
    exact ⟨rfl, if_pos (by assumption)⟩
  split at refused
  · contradiction
  split at refused
  · cases refused
    simp_all
  · contradiction

theorem untouchedRaised {address : Option PhysicalReg} {low high : Allocation}
    (given : ∀ i ∈ low.block.values, i.inserted = false) (result : high.result = low.result)
    (block : high.block = low.block) : Raised address options.base 0 low high := by
  refine ⟨result, ?_, ?_, fun i inside addresses => ?_⟩
  · rw [block, mapShiftGiven address options.base fun e inside => given e.2 (List.mem_map_of_mem inside)]
  · rw [block, savedGiven given]
    rfl
  · rw [block] at inside
    simp [Instr.addresses, given i inside] at addresses

end

theorem spillBaseShifts (b : Block) (sound : b.Sound) (given : ∀ i ∈ b.values, i.inserted = false)
    (short : 12 * b.size < 4294967295) :
    ∃ summary, b.rename.result = .ok summary ∧ ∀ (k : Nat) (options : Options), k ≤ 64 →
      let low := b.rename.block.allocateRenamed summary k {options with base := 0}
      let high := b.rename.block.allocateRenamed summary k options
      let count := low.block.values.countP Instr.saves
      (∀ f, low.result ≠ .error (.fault f)) ∧
        (options.base.toNat + 4 * count ≤ 4294967295 →
          Raised (addressRegister summary k) options.base count low high) ∧
        (4294967295 < options.base.toNat + 4 * count →
          high.result = .error (.fault .spillAddressOverflow)) := by
  obtain ⟨steps, renamed, renames, spells⟩ := b.renameOk sound given (by omega)
  refine ⟨_, renamed, fun k options few => ?_⟩
  have listed : ∀ e ∈ b.entries, e.2.inserted = false :=
    fun e inside => given e.2 (List.mem_map_of_mem inside)
  have untouched := Renaming.renamesGiven renames listed
  rw [← Renaming.renamedValues spells] at untouched
  have minted := Renaming.renamesMinted renames
  rw [← Chain.spellsSize (Chain.soundSpells sound)] at minted
  cases made : Plan.make k (envAbove steps).summary {options with base := 0} with
  | ok plan =>
    rw [← planAddress made]
    exact plannedRaised (Chain.spellsSound spells) spells renames listed few
      (Renaming.renamedNames sound renames (by omega)) (by omega) made
  | error stop =>
    obtain ⟨rfl, refused⟩ := planRefused few made options
    have low : b.rename.block.allocateRenamed (envAbove steps).summary k {options with base := 0} =
        ⟨b.rename.block, [], .error (.error (.tooFewRegisters k (envAbove steps).summary.maxLive))⟩ := by
      simp only [Block.allocateRenamed, made]
    have none : b.rename.block.values.countP Instr.saves = 0 :=
      List.countP_eq_zero.mpr fun i inside => by simp [givenPlain (untouched i inside)]
    have bound := options.base.toNat_lt
    simp only [low, none]
    refine ⟨fun f faulted => (by cases faulted), fun _ => ?_, fun large => absurd large (by omega)⟩
    exact untouchedRaised untouched (by simp only [Block.allocateRenamed, refused])
      (by simp only [Block.allocateRenamed, refused])

theorem spilledSumBases :
    let allocated := fun base => spilledSum.rename.block.allocateRenamed ⟨4, 6, 4⟩ 3 {base}
    Raised (some ⟨2⟩) 4294967287 2 (allocated 0) (allocated 4294967287) ∧
      (allocated 4294967288).result = .error (.fault .spillAddressOverflow) := by
  have renamed : spilledSum.rename.result = .ok ⟨4, 6, 4⟩ := by decide +kernel
  obtain ⟨summary, ran, shifts⟩ := spillBaseShifts spilledSum (Chain.ofListSound _)
    (by decide +kernel) (by decide +kernel)
  obtain rfl : (⟨4, 6, 4⟩ : Renaming.Summary) = summary := Except.ok.inj (renamed.symm.trans ran)
  have two : (spilledSum.rename.block.allocateRenamed ⟨4, 6, 4⟩ 3 {base := 0}).block.values.countP
      Instr.saves = 2 := by decide +kernel
  have register : addressRegister ⟨4, 6, 4⟩ 3 = some ⟨2⟩ := by decide +kernel
  have fits := shifts 3 {base := 4294967287} (by decide)
  have beyond := shifts 3 {base := 4294967288} (by decide)
  simp only [two, register] at fits beyond
  exact ⟨fits.2.1 (by decide +kernel), beyond.2.2 (by decide +kernel)⟩

end Allocation
end Straightline
