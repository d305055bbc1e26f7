import Mathlib.Data.List.Perm.Subperm
import Straightline.Proofs.Allocation.Run

/-! How an allocation ends. Where the registers can hold all that is wanted at once, one is always
free when it is wanted. Otherwise a register is taken from some value, and that is impossible only
where the current instruction reads every usable register: with one usable register, at the first
instruction that reads two values. -/
namespace Straightline

def Instr.readsTwo (n : Naming) (i : Instr) : Bool :=
  decide (∃ r ∈ i.readRegs n, ∃ s ∈ i.readRegs n, r ≠ s)

theorem Instr.readsTwoSlots {n : Naming} {i : Instr} : i.readsTwo n = true ↔
    ∃ s t, i.opcode.reads = [s, t] ∧ (i.operand s).reg n ≠ (i.operand t).reg n := by
  simp only [readsTwo, decide_eq_true_eq, readRegs, readOperands, List.map_map]
  constructor
  · rintro ⟨r, first, s, second, differ⟩
    have few := Opcode.readsAtMostTwo i.opcode
    rcases reads : i.opcode.reads with _ | ⟨a, _ | ⟨b, _ | ⟨c, rest⟩⟩⟩
    · simp [reads] at first
    · simp only [reads, List.map_cons, List.map_nil, List.mem_singleton] at first second
      exact absurd (first.trans second.symm) differ
    · refine ⟨a, b, rfl, fun same => differ ?_⟩
      simp only [reads, List.map_cons, List.map_nil, List.mem_cons, List.not_mem_nil, or_false,
        Function.comp_apply, same, or_self] at first second
      exact first.trans second.symm
    · rw [reads] at few
      simp at few
  · rintro ⟨s, t, reads, differ⟩
    exact ⟨_, by rw [reads]; simp, _, by rw [reads]; simp, differ⟩

namespace Allocation
open Renaming (Env Step Renames Flows envAbove)

section
variable {plan : Plan} {n position : Nat} {site : Site} {l m k : Ledger} {i : Instr} {e : Stop}
  {slots : List Slot} {v w : VirtualReg} {p : PhysicalReg} {u : NextUse} {h : Handle} {env : Env}
  {es : List (Handle × Instr)} {s : Step} {steps : List Step}

theorem liveCount {vs : List VirtualReg} (counts : env.live = env.ranges.size) (nodup : vs.Nodup)
    (live : ∀ v ∈ vs, env.Live v) : vs.length ≤ env.live := by
  have inside : vs ⊆ env.ranges.toList.map Prod.snd := by
    intro v listed
    obtain ⟨r, range⟩ := live v listed
    exact List.mem_map.mpr ⟨(r, v), Std.TreeMap.mem_toList_iff_getElem?_eq_some.mpr range, rfl⟩
  have short := (List.subperm_of_subset nodup inside).length_le
  rwa [List.length_map, Std.TreeMap.length_toList, ← counts] at short

theorem residentsOf {ps : List PhysicalReg} (nodup : ps.Nodup)
    (held : ∀ p ∈ ps, ∃ v, (l.record v).home = some p) :
    ∃ vs : List VirtualReg, vs.Nodup ∧ vs.length = ps.length ∧
      ∀ v ∈ vs, ∃ p ∈ ps, (l.record v).home = some p := by
  induction ps with
  | nil => exact ⟨[], List.nodup_nil, rfl, by simp⟩
  | cons p ps ih =>
    obtain ⟨unlisted, nodup⟩ := List.nodup_cons.mp nodup
    obtain ⟨vs, distinct, length, homes⟩ := ih nodup fun q inside => held q (List.mem_cons_of_mem _ inside)
    obtain ⟨v, home⟩ := held p List.mem_cons_self
    refine ⟨v :: vs, List.nodup_cons.mpr ⟨fun inside => ?_, distinct⟩, by simp [length], fun w inside => ?_⟩
    · obtain ⟨q, listed, home'⟩ := homes v inside
      rw [home] at home'
      exact unlisted (Option.some.inj home' ▸ listed)
    · rcases List.mem_cons.mp inside with rfl | later
      · exact ⟨p, List.mem_cons_self, home⟩
      · obtain ⟨q, listed, home'⟩ := homes w later
        exact ⟨q, List.mem_cons_of_mem _ listed, home'⟩

theorem fullResidents (few : plan.usable ≤ 64) (tables : Tables plan n l l.free) (full : l.free = []) :
    ∃ vs : List VirtualReg, vs.Nodup ∧ vs.length = plan.usable ∧
      ∀ v ∈ vs, (l.record v).home ≠ none := by
  obtain ⟨vs, nodup, length, homes⟩ := residentsOf (l := l) (Reg.belowNodup plan.usable) fun p below => by
    cases held : l.holder p with
    | some o => exact ⟨o.value, (tables.home o.value p).mpr ⟨o.nextUse, held⟩⟩
    | none =>
      have spare := (tables.empty p).mpr ⟨Reg.memBelow.mp below, held⟩
      rw [full] at spare
      contradiction
  refine ⟨vs, nodup, by rw [length, Reg.belowLength few], fun v inside => ?_⟩
  obtain ⟨p, -, home⟩ := homes v inside
  simp [home]

theorem fullLive (counts : env.live = env.ranges.size) (few : plan.usable ≤ 64)
    (tables : Tables plan n l l.free) (full : l.free = []) (resident : ∀ w, (l.record w).home ≠ none → env.Live w) :
    plan.usable ≤ env.live := by
  obtain ⟨vs, nodup, length, homes⟩ := fullResidents few tables full
  rw [← length]
  exact liveCount counts nodup fun w inside => resident w (homes w inside)

theorem fullLiveMore (counts : env.live = env.ranges.size) (few : plan.usable ≤ 64)
    (tables : Tables plan n l l.free) (full : l.free = [])
    (resident : ∀ w, (l.record w).home ≠ none → env.Live w) (live : env.Live v)
    (away : (l.record v).home = none) : plan.usable + 1 ≤ env.live := by
  obtain ⟨vs, nodup, length, homes⟩ := fullResidents few tables full
  rw [← length, ← List.length_cons (a := v)]
  refine liveCount counts (List.nodup_cons.mpr ⟨fun inside => homes v inside away, nodup⟩) fun w inside => ?_
  rcases List.mem_cons.mp inside with rfl | later
  · exact live
  · exact resident w (homes w later)

theorem unresolvedStops (unresolved : Unresolved plan n site i e slots l k) :
    ∃ before slot after m v, slots = before ++ slot :: after ∧ Resolves plan site i before l m ∧
      (i.operand slot).virtual = some v ∧ (m.record v).home = none ∧ Stops plan n site m e k := by
  induction unresolved with
  | @here slot slots v l _ virtual away stops =>
    exact ⟨[], slot, slots, l, v, rfl, .nil l, virtual, away, stops⟩
  | @later slot slots v p l _ _ virtual fetches rest ih =>
    obtain ⟨before, slot', after, m, w, rfl, resolves, virtual', away, stops⟩ := ih
    exact ⟨slot :: before, slot', after, m, w, rfl, .cons virtual fetches resolves, virtual', away, stops⟩

theorem stopsFull (stops : Stops plan n site l e k) : l.free = [] := by
  cases stops <;> assumption

theorem readsFull {below above : Env} {slot : Slot} {before after : List Slot}
    (counts : above.live = above.ranges.size) (few : plan.usable ≤ 64)
    (flows : Flows below above i) (sound : Sound plan n l l.free)
    (wants : Wants n i l) (resident : ∀ v, (l.record v).home ≠ none → above.Live v)
    (split : i.opcode.reads = before ++ slot :: after)
    (resolves : Resolves plan site i before l.unpin m) (virtual : (i.operand slot).virtual = some v)
    (away : (m.record v).home = none) (full : m.free = []) : plan.usable + 1 ≤ above.live := by
  have read : ∀ slot' ∈ before ++ slot :: after, ∀ w, (i.operand slot').virtual = some w →
      above.Live w :=
    fun slot' inside w found => (Renaming.flowsRead flows (split ▸ inside) found).1
  have known := fun slot inside => wantsKnown wants slot (split ▸ List.mem_append_left _ inside)
  have reading := resolvesReading known resolves (startReading sound)
  refine fullLiveMore counts few reading.sound.tables full (fun w home => ?_)
    (read slot (by simp) v virtual) away
  rcases resolvesHome resolves home with earlier | ⟨slot', inside, found⟩
  · exact resident w earlier
  · exact read slot' (List.mem_append_left _ inside) w found

theorem readsStop {below above : Env} (counts : above.live = above.ranges.size)
    (few : plan.usable ≤ 64) (flows : Flows below above i) (sound : Sound plan n l l.free)
    (wants : Wants n i l) (resident : ∀ v, (l.record v).home ≠ none → above.Live v)
    (unresolved : Unresolved plan n site i e i.opcode.reads l.unpin k) :
    plan.usable + 1 ≤ above.live := by
  obtain ⟨before, slot, after, m, v, split, resolves, virtual, away, stops⟩ :=
    unresolvedStops unresolved
  exact readsFull counts few flows sound wants resident split resolves virtual away (stopsFull stops)

theorem writeStops {below above : Env} {slot : Slot} (counts : below.live = below.ranges.size)
    (few : plan.usable ≤ 64) (flows : Flows below above i) (sound : Sound plan n l l.free) (wants : Wants n i l)
    (resident : ∀ v, (l.record v).home ≠ none → above.Live v)
    (resolves : Resolves plan site i i.opcode.reads l.unpin m)
    (writes : i.opcode.writes = some slot)
    (full : (m.releases i.lastReads).unpin.free = []) :
    plan.usable + 1 ≤ below.live ∨ plan.usable + 1 ≤ above.maxPressure := by
  have tables := (resolvedSound wants sound resolves).tables
  have held := fun w home => resolvedResident (w := w) flows resident resolves home
  -- The target is the open range that lacks a register, or one that is never read: the pressure counts
  -- that one too.
  obtain ⟨v, virtual, dead, -, live | ⟨-, pressure⟩⟩ := flows.written slot writes
  · left
    refine fullLiveMore counts few tables full (fun w home => (held w home).2) live ?_
    by_contra home
    exact dead (held v home).1
  · right
    have count := fullLive counts few tables full fun w home => (held w home).2
    omega

theorem roomyUnblocked (few : plan.usable ≤ 64) (renames : Renames position es (s :: steps))
    (stage : Stage plan n (s :: steps) l) (numbered : s.env.minted ≤ n)
    (live : s.env.maxLive ≤ plan.usable) (pressure : s.env.maxPressure ≤ plan.usable) :
    ¬ Blocked plan n s.handle s.instr l e m := by
  have wants := stageWants renames stage numbered
  cases renames with
  | @cons _ h i j env es _ inRange pass rest =>
    have below := Renaming.renamesSound rest
    have flows := Renaming.renamesFlows pass rest
    have counted := pass.sound.counted
    have counted' := below.counted
    have grows := pass.maxLive
    have counts := pass.sound.live
    have counts' := below.live
    intro blocked
    cases blocked with
    | reading unresolved =>
      have many := readsStop counts few flows stage.sound wants stage.resident unresolved
      simp only at live
      omega
    | writing resolves writes stops =>
      rcases writeStops counts' few flows stage.sound wants stage.resident resolves writes
        (stopsFull stops) with many | many
      · simp only at live
        omega
      · simp only at many pressure
        omega

theorem roomyNeverFails (few : plan.usable ≤ 64) (renames : Renames position es steps)
    (stage : Stage plan n steps l) (numbered : (envAbove steps).minted ≤ n)
    (live : (envAbove steps).maxLive ≤ plan.usable)
    (pressure : (envAbove steps).maxPressure ≤ plan.usable) : ¬ Fails plan n e steps l m := by
  intro fails
  induction fails generalizing position es with
  | here blocked => exact roomyUnblocked few renames stage numbered live pressure blocked
  | later crosses rest ih =>
    have next := crossesStage renames stage numbered crosses
    cases renames with
    | cons inRange pass later =>
      exact ih later next (Nat.le_trans pass.minted.1 numbered) (Nat.le_trans pass.maxLive live)
        (Nat.le_trans pass.maxPressure pressure)

theorem ownersBound (saved : Saved plan n l) (known : v.number < n)
    (slotless : (l.record v).slot = none) : l.owners.length + 1 ≤ n := by
  have new := (slotlessUnowned saved).mp slotless
  have distinct : ((v :: l.owners).map Reg.number).Nodup :=
    (List.nodup_cons.mpr ⟨new, saved.nodup⟩).map fun _ _ => Reg.numberInjective
  have inside : (v :: l.owners).map Reg.number ⊆ List.range n := by
    intro x listed
    obtain ⟨w, member, rfl⟩ := List.mem_map.mp listed
    rw [List.mem_range]
    rcases List.mem_cons.mp member with rfl | owner
    · exact known
    · exact saved.known w owner
  have short := (List.subperm_of_subset distinct inside).length_le
  rwa [List.length_map, List.length_cons, List.length_range] at short

theorem tightStops (saved : Saved plan n l) (address : plan.address ≠ none)
    (room : plan.options.base.toNat + slotSize * n ≤ 4294967295) (stops : Stops plan n site l e k) :
    e = .error (.tooManyLive site.handle site.line) ∧
      ∀ p : PhysicalReg, p.number < plan.usable → l.pinned.contains p = true := by
  cases stops with
  | crowded full pinned => exact ⟨rfl, pinned⟩
  | addressless full none => exact absurd none address
  | overflow full known slotless large =>
    have count := ownersBound saved known slotless
    have size : slotSize = 4 := rfl
    rw [size] at room large
    omega

theorem tightBlocked (wants : Wants n i l) (sound : Sound plan n l l.free)
    (few : plan.usable ≤ 64) (enough : 1 ≤ plan.usable) (address : plan.address ≠ none)
    (room : plan.options.base.toNat + slotSize * n ≤ 4294967295) (blocked : Blocked plan n h i l e k) :
    e = .error (.tooManyLive h i.line) ∧ plan.usable = 1 ∧ i.readsTwo .virtual = true := by
  obtain ⟨first, zero, -⟩ := regNumbered (i := 0) (by omega)
  cases blocked with
  | writing resolves writes stops =>
    obtain ⟨-, pinned⟩ := tightStops (resolvedSound wants sound resolves).saved address room stops
    have none := pinned first (by omega)
    rw [Ledger.unpin, RegisterSet.containsEmpty] at none
    contradiction
  | reading unresolved =>
    obtain ⟨before, slot, after, m, v, split, resolves, virtual, away, stops⟩ :=
      unresolvedStops unresolved
    have known := fun slot inside => wantsKnown wants slot (split ▸ List.mem_append_left _ inside)
    have reading := resolvesReading known resolves (startReading sound)
    obtain ⟨same, pinned⟩ := tightStops reading.sound.saved address room stops
    refine ⟨same, ?_⟩
    cases resolves with
    | nil =>
      have none := pinned first (by omega)
      rw [Ledger.unpin, RegisterSet.containsEmpty] at none
      contradiction
    -- No more than two operands are read, so the first one alone pins every usable register.
    | @cons slot' before w p _ m' _ virtual' fetches rest =>
      have short := Opcode.readsAtMostTwo i.opcode
      rw [split] at short
      cases rest with
      | cons => simp at short
      | nil =>
        obtain rfl : after = [] := by simpa using short
        have only : ∀ q : PhysicalReg, q.number < plan.usable → p = q := by
          intro q usable
          have inside := pinned q usable
          rw [Ledger.resolve, RegisterSet.containsInsert, (fetchesRest fetches).2, Ledger.unpin,
            RegisterSet.containsEmpty] at inside
          simpa using inside
        obtain ⟨-, u, held⟩ := fetchesSound (unpinSound sound)
          (known slot' List.mem_cons_self w virtual') fetches
        refine ⟨?_, Instr.readsTwoSlots.mpr ⟨slot', slot, split, fun equal => ?_⟩⟩
        · by_contra more
          obtain ⟨second, one, -⟩ := regNumbered (i := 1) (by omega)
          have same := (only first (by omega)).symm.trans (only second (by omega))
          rw [same] at zero
          omega
        · simp only [Operand.reg, virtual, virtual', Option.some.injEq] at equal
          have home := (reading.sound.tables.home w p).mpr
            ⟨(i.operand slot').nextUse, by simp [Ledger.resolve, held]⟩
          rw [equal, away] at home
          contradiction

theorem loneUncrossed (wants : Wants n i l) (sound : Sound plan n l l.free) (lone : plan.usable = 1)
    (two : i.readsTwo .virtual = true) : ¬ Crosses plan h i l k := by
  obtain ⟨slot, slot', reads, differ⟩ := Instr.readsTwoSlots.mp two
  have known := wantsKnown wants
  rintro ⟨resolves, -⟩
  rw [reads] at resolves known
  cases resolves with
  | @cons _ _ v p _ m _ virtual fetches rest =>
    have bound := known slot (by simp) v virtual
    have reading := fetchesReading (startReading sound) bound fetches slot
    obtain ⟨-, u, held⟩ := fetchesSound (unpinSound sound) bound fetches
    have occupied : (m.resolve slot p (i.operand slot).nextUse).holder p =
        some ⟨v, (i.operand slot).nextUse⟩ := by simp [Ledger.resolve, held]
    have pinned : (m.resolve slot p (i.operand slot).nextUse).pinned.contains p = true := by
      simp [Ledger.resolve, RegisterSet.containsInsert]
    have only : ∀ q : PhysicalReg, q.number < plan.usable → q = p := by
      have usable := (reading.sound.tables.held p _ occupied).1
      exact fun q below => Reg.numberInjective (by omega)
    -- The second operand would have to be in the register that the first one has.
    cases rest with
    | @cons _ _ w q _ _ _ virtual' fetches' _ =>
      have other : w ≠ v := by
        simpa [Operand.reg, virtual, virtual', eq_comm] using differ
      cases fetches' with
      | resident home =>
        obtain ⟨u', found⟩ := (reading.sound.tables.home w q).mp home
        rw [only q (reading.sound.tables.held q _ found).1, occupied] at found
        simp only [Option.some.injEq, Occupant.mk.injEq] at found
        exact other found.1.symm
      | brought away takes brings =>
        have free := takesUnpinned reading.sound reading.pins takes
        have usable := (((takesSound reading.sound takes).tables.empty q).mp List.mem_cons_self).1
        rw [only q usable, pinned] at free
        contradiction

theorem tightFails (few : plan.usable ≤ 64) (enough : 1 ≤ plan.usable) (address : plan.address ≠ none)
    (room : plan.options.base.toNat + slotSize * n ≤ 4294967295) (renames : Renames position es steps)
    (stage : Stage plan n steps l) (numbered : (envAbove steps).minted ≤ n)
    (fails : Fails plan n e steps l m) :
    plan.usable = 1 ∧ ∃ s, (steps.find? fun s => s.instr.readsTwo .virtual) = some s ∧
      e = .error (.tooManyLive s.handle s.instr.line) := by
  induction fails generalizing position es with
  | @here s steps l _ blocked =>
    have wants := stageWants renames stage numbered
    obtain ⟨same, lone, two⟩ := tightBlocked wants stage.sound few enough address room blocked
    exact ⟨lone, s, by simp [two], same⟩
  | @later s steps l k _ crosses rest ih =>
    have wants := stageWants renames stage numbered
    have next := crossesStage renames stage numbered crosses
    cases renames with
    | cons inRange pass later =>
      obtain ⟨lone, t, found, same⟩ := ih later next (Nat.le_trans pass.minted.1 numbered)
      refine ⟨lone, t, ?_, same⟩
      rw [List.find?_cons_of_neg, found]
      exact fun two => loneUncrossed wants stage.sound lone two crosses

theorem loneWalks (lone : plan.usable = 1) (renames : Renames position es steps)
    (stage : Stage plan n steps l) (numbered : (envAbove steps).minted ≤ n)
    (walks : Walks plan steps l m) :
    (steps.find? fun s => s.instr.readsTwo .virtual) = none := by
  induction walks generalizing position es with
  | nil => rfl
  | @cons s steps l k m crosses rest ih =>
    have wants := stageWants renames stage numbered
    have next := crossesStage renames stage numbered crosses
    cases renames with
    | cons inRange pass later =>
      rw [List.find?_cons_of_neg, ih later next (Nat.le_trans pass.minted.1 numbered)]
      exact fun two => loneUncrossed wants stage.sound lone two crosses

theorem passesReadsTwo {below above : Env} {j : Instr}
    (pass : Renaming.Passes position below i j above) : j.readsTwo .virtual = i.readsTwo .source := by
  rw [Bool.eq_iff_iff, Instr.readsTwoSlots, Instr.readsTwoSlots, pass.relabels.opcode]
  refine exists_congr fun s => exists_congr fun t => and_congr_right fun reads => ?_
  obtain ⟨v, virtual, range, -⟩ := pass.read s (by simp [reads])
  obtain ⟨w, virtual', range', -⟩ := pass.read t (by simp [reads])
  simp only [Operand.reg, virtual, virtual']
  refine not_congr ⟨fun same => ?_, fun same => ?_⟩
  · rw [← Option.some.inj same] at range'
    exact pass.sound.distinct _ _ v range range'
  · rw [same, range'] at range
    exact range.symm

theorem firstReadsTwo (renames : Renames position es steps) :
    (es.find? fun e => e.2.readsTwo .source).map (fun e => Error.tooManyLive e.1 e.2.line) =
      (steps.find? fun s => s.instr.readsTwo .virtual).map
        fun s => Error.tooManyLive s.handle s.instr.line := by
  induction renames with
  | nil => rfl
  | @cons position h i j env es steps inRange pass rest ih =>
    simp only [List.find?_cons, passesReadsTwo pass]
    cases i.readsTwo .source with
    | true => simp [pass.relabels.line]
    | false => exact ih

end

section
variable {b : Block} {es : List (Handle × Instr)} {steps : List Step} {k : Nat} {options : Options}
  (spells : b.Spells (steps.map fun s => (s.handle, s.instr))) (renames : Renames 0 es steps)
  (few : k ≤ 64) (named : (envAbove steps).minted ≤ Naming.virtual.limit)
include spells renames few named

theorem roomyAllocates (some : k ≠ 0) (roomy : (envAbove steps).summary.maxPressure ≤ k) :
    ∃ output, (b.allocateRenamed (envAbove steps).summary k options).result = .ok output := by
  have made : Plan.make k (envAbove steps).summary options = .ok ⟨k, none, options⟩ := by
    simp [Plan.make, Nat.not_lt.mpr few, some, roomy]
  have limit : Naming.virtual.limit < 9223372036854775808 := by decide
  have cases := allocateRenamedCases spells renames (Nat.le_refl _) made (Nat.lt_of_le_of_lt named limit)
  cases outcome : (b.allocateRenamed (envAbove steps).summary k options).result with
  | ok output => exact ⟨output, rfl⟩
  | error e =>
    rw [outcome] at cases
    rcases cases with ⟨m, fails, -⟩ | more
    · refine absurd fails (roomyNeverFails few renames (initialStage _ _ steps) (Nat.le_refl _) ?_ ?_)
      · exact Nat.le_trans (Nat.le_max_right _ _) roomy
      · exact Nat.le_trans (Nat.le_max_left _ _) roomy
    · exact absurd named (Nat.not_le.mpr more)

theorem tightAllocates (two : 2 ≤ k) (tight : k < (envAbove steps).summary.maxPressure)
    (room : options.base.toNat + 4 * (envAbove steps).minted ≤ 4294967295) :
    match if k = 2 then
        (es.find? fun e => e.2.readsTwo .source).map fun e => Error.tooManyLive e.1 e.2.line
      else none with
    | some e => (b.allocateRenamed (envAbove steps).summary k options).result = .error (.error e)
    | none => ∃ output, (b.allocateRenamed (envAbove steps).summary k options).result = .ok output := by
  obtain ⟨a, -, address⟩ := regNumbered (i := k - 1) (by omega)
  have made : Plan.make k (envAbove steps).summary options = .ok ⟨k - 1, some a, options⟩ := by
    have ordinary : k ≠ 0 ∧ k ≠ 1 := by omega
    simp [Plan.make, Nat.not_lt.mpr few, ordinary, Nat.not_le.mpr tight, address]
  have limit : Naming.virtual.limit < 9223372036854775808 := by decide
  have stage := initialStage ⟨k - 1, some a, options⟩ (envAbove steps).minted steps
  have cases := allocateRenamedCases spells renames (Nat.le_refl _) made (Nat.lt_of_le_of_lt named limit)
  rw [firstReadsTwo renames]
  cases outcome : (b.allocateRenamed (envAbove steps).summary k options).result with
  | ok output =>
    rw [outcome] at cases
    obtain ⟨m, walks, -⟩ := cases
    by_cases lone : k = 2
    · have none := loneWalks (by simp [lone]) renames stage (Nat.le_refl _) walks
      rw [if_pos lone, none]
      exact ⟨output, rfl⟩
    · rw [if_neg lone]
      exact ⟨output, rfl⟩
  | error e =>
    rw [outcome] at cases
    rcases cases with ⟨m, fails, -⟩ | more
    · obtain ⟨lone, s, found, rfl⟩ := tightFails (by simp; omega) (by simp; omega) (by simp) room
        renames stage (Nat.le_refl _) fails
      simp only at lone
      rw [if_pos (by omega), found, Option.map_some]
    · exact absurd named (Nat.not_le.mpr more)

end

/-- The error that allocating a block onto `k` registers ends in, if it does. -/
def refusal (b : Block) (summary : Renaming.Summary) (k : Nat) : Option Error :=
  if k = 0 ∨ k = 1 ∧ 1 < summary.maxPressure then some (.tooFewRegisters k summary.maxLive)
  else if k = 2 ∧ 2 < summary.maxPressure then
    (b.entries.find? fun e => e.2.readsTwo .source).map fun e => .tooManyLive e.1 e.2.line
  else none

theorem allocationOutcome (b : Block) (sound : b.Sound) (given : ∀ i ∈ b.values, i.inserted = false)
    (short : 11 * b.size < 4294967295) :
    ∃ summary, b.rename.result = .ok summary ∧ ∀ (k : Nat) (options : Options), k ≤ 64 →
      options.base.toNat + 4 * summary.numVirtual ≤ 4294967295 →
      match refusal b summary k with
      | some e => (b.allocate k options).2.result = .error (.error e)
      | none => ∃ output, (b.allocate k options).2.result = .ok output := by
  obtain ⟨steps, renamed, renames, spells⟩ := b.renameOk sound given (by omega)
  refine ⟨_, renamed, fun k options few room => ?_⟩
  have minted := Renaming.renamesMinted renames
  have named : (envAbove steps).minted ≤ Naming.virtual.limit := by
    have limit : Naming.virtual.limit = 4294967295 := rfl
    rw [← Chain.spellsSize (Chain.soundSpells sound)] at minted
    omega
  have allocated : (b.allocate k options).2 =
      b.rename.block.allocateRenamed (envAbove steps).summary k options := by
    simp only [Block.allocate, renamed]
  rw [allocated, refusal]
  by_cases none : k = 0 ∨ k = 1 ∧ 1 < (envAbove steps).summary.maxPressure
  · have refused : Plan.make k (envAbove steps).summary options =
        .error (.error (.tooFewRegisters k (envAbove steps).summary.maxLive)) := by
      rcases none with rfl | ⟨rfl, more⟩
      · rfl
      · simp [Plan.make, Nat.not_le.mpr more]
    simp only [if_pos none, Block.allocateRenamed, refused]
  · rw [if_neg none]
    rcases Nat.lt_or_ge k (envAbove steps).summary.maxPressure with tight | roomy
    · have ends := tightAllocates spells renames few named (by omega) tight room
      have exceeds : (k = 2 ∧ 2 < (envAbove steps).summary.maxPressure) = (k = 2) :=
        propext ⟨fun both => both.1, fun two => ⟨two, two ▸ tight⟩⟩
      simpa only [exceeds] using ends
    · rw [if_neg (by omega)]
      exact roomyAllocates spells renames few named (by omega) roomy

theorem spilledSumOutcome :
    (spilledSum.allocate 2 {}).2.result = .error (.error (.tooManyLive 4 5)) ∧
      ∃ output, (spilledSum.allocate 3 {}).2.result = .ok output := by
  obtain ⟨summary, ran, ends⟩ := allocationOutcome spilledSum (Chain.ofListSound _)
    (by decide +kernel) (by decide +kernel)
  have renamed : spilledSum.rename.result = .ok ⟨4, 6, 4⟩ := by decide +kernel
  obtain rfl : (⟨4, 6, 4⟩ : Renaming.Summary) = summary := Except.ok.inj (renamed.symm.trans ran)
  have two := ends 2 {} (by decide) (by decide +kernel)
  have three := ends 3 {} (by decide) (by decide +kernel)
  have refused : refusal spilledSum ⟨4, 6, 4⟩ 2 = some (.tooManyLive 4 5) := by decide +kernel
  rw [refused] at two
  exact ⟨two, three⟩

end Allocation
end Straightline
