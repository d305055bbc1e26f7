import Straightline.Proofs.Allocation.Moves
import Straightline.Proofs.Registers

/-! The work of an allocation makes the moves. Each piece of work is followed on a sound ledger to
the move it makes there, and stops only where a register is wanted and none can be had. -/
namespace Straightline.Allocation

theorem pickMem {α : Type} (yields : α → α → Prop) [∀ a b, Decidable (yields a b)] (xs : List α)
    (x : α) : xs.foldl (fun a b => if yields a b then b else a) x ∈ x :: xs := by
  induction xs generalizing x with
  | nil => exact List.mem_cons_self
  | cons y ys ih =>
    rw [List.foldl_cons]
    split
    · exact List.mem_cons_of_mem _ (ih y)
    · rcases List.mem_cons.mp (ih x) with here | later
      · rw [here]
        exact List.mem_cons_self
      · exact List.mem_cons_of_mem _ (List.mem_cons_of_mem _ later)

theorem contendersNonempty {s : State} {plan : Plan} (some : s.candidates plan ≠ []) :
    s.contenders plan ≠ [] := by
  have found := pickMem (fun a b : NextUse => a.rank < b.rank) ((s.candidates plan).map s.nextUse)
    (.read ⟨0, by decide⟩)
  rw [State.contenders]
  rcases List.mem_cons.mp found with least | attained
  · obtain ⟨p, inside⟩ := List.exists_mem_of_ne_nil _ some
    refine List.ne_nil_of_mem (List.mem_filter.mpr ⟨inside, ?_⟩)
    rw [State.farthest, least]
    simp [NextUse.within, NextUse.rank]
  · obtain ⟨p, inside, last⟩ := List.mem_map.mp attained
    refine List.ne_nil_of_mem (List.mem_filter.mpr ⟨inside, ?_⟩)
    simp [State.farthest, NextUse.within, last]

theorem memContenders {s : State} {plan : Plan} {p : PhysicalReg} (inside : p ∈ s.contenders plan) :
    p.number < plan.usable ∧ s.pinned.contains p = false := by
  have candidate := (List.mem_filter.mp inside).1
  obtain ⟨below, unpinned⟩ := List.mem_filter.mp candidate
  exact ⟨Reg.memBelow.mp below, by simpa using unpinned⟩

theorem bestMem {v : Victim} {vs : List Victim} (best : Victim.best vs = some v) : v ∈ vs := by
  cases vs with
  | nil => contradiction
  | cons x xs =>
    obtain rfl := Option.some.inj best
    exact pickMem (fun a b : Victim => b.better a = true) xs x

section
variable {plan : Plan} {n : Nat} {site : Site} {l : Ledger} {spare : List PhysicalReg} {i : Instr}
  {rest : List (Handle × Instr)} {v : VirtualReg} {p : PhysicalReg} {u : NextUse} {o : Occupant}
  {finish : Unit → Ledger → Prop} {done : PhysicalReg → Ledger → Prop} {stopped : Stop → Ledger → Prop}

theorem runsEvict (sound : Sound plan n l spare) (full : l.free = []) (held : l.holder p = some o)
    (head : l.rest = (site.handle, i) :: rest)
    (holds : ∀ m, Evicts plan site o.value p l m → finish () m)
    (stop : ∀ e m, Stops plan n site l e m → stopped e m) :
    Runs plan n (Work.evict plan site o.value p) l finish stopped := by
  obtain ⟨usable, known⟩ := sound.tables.held p o held
  have kept := sound.saved.kept o.value
  refine runsBind (runsCount (runsBind (runsValue known ?_)))
  cases cost : (l.record o.value).cost with
  | constant =>
    have cheap : (l.record o.value).cost ≠ .dirty := by simp [cost]
    refine runsBind (runsRecord (runsBind (runsUpdateValue known (runsVacate known usable held ?_))))
    simp only [Function.update_idem, Function.update_self]
    exact holds _ (.kept cheap)
  | clean =>
    have cheap : (l.record o.value).cost ≠ .dirty := by simp [cost]
    refine runsBind (runsRecord (runsVacate known usable held ?_))
    have moved := holds _ (.kept cheap)
    rw [← costClean cost] at moved
    exact moved
  | dirty =>
    have slotless := dirtySlotless kept (costDirty.mp cost).2
    unfold Work.addressRegister
    cases address : plan.address with
    | none => exact runsBind (runsThrow (stop _ _ (.addressless full address)))
    | some a =>
      refine runsBind (runsPure (runsBind (runsFreshSlot known slotless (fun room => ?_) fun large =>
        stop _ _ (.overflow full known slotless large))))
      refine runsBind (runsRecord (runsBind (runsInsert head fun h => runsBind (runsInsert head
        fun k => runsBind (runsUpdateValue known (runsBind (runsCount (runsVacate known usable held
          ?_))))))))
      simp only [Function.update_idem, Function.update_self]
      exact holds _ (.stored (h := h) (k := k) cost address room)

theorem runsVictims {victims : List Victim → Ledger → Prop} (sound : Sound plan n l spare)
    (ps : List PhysicalReg) (occupied : ∀ p ∈ ps, ∃ o, l.holder p = some o)
    (holds : victims (ps.filterMap l.victim) l) :
    Runs plan n (ps.mapM Work.victimIn) l victims stopped := by
  induction ps generalizing victims with
  | nil => exact runsPure holds
  | cons p ps ih =>
    obtain ⟨o, held⟩ := occupied p List.mem_cons_self
    obtain ⟨usable, known⟩ := sound.tables.held p o held
    have here : l.victim p = some ⟨p, o.value, (l.record o.value).cost, o.nextUse⟩ := by
      rw [Ledger.victim, held, Option.map_some]
    rw [List.filterMap_cons_some here] at holds
    rw [List.mapM_cons]
    refine runsBind (runsBind (runsOccupant usable ?_))
    rw [held]
    exact runsBind (runsValue known (runsPure (runsBind (ih
      (fun q inside => occupied q (List.mem_cons_of_mem _ inside)) (runsPure holds)))))

theorem reflectsContenders {s : State} (reflects : Reflects plan n s l) :
    s.contenders plan = l.contenders plan := by
  have next : s.nextUse = l.nextUse := by
    funext p
    rw [Ledger.nextUse, reflects.holder, State.nextUse]
    rcases s.registers[p.number]? with _ | _ | o <;> rfl
  simp only [State.contenders, Ledger.contenders, State.candidates, Ledger.candidates, State.farthest,
    Ledger.farthest, next, reflects.pinned]

theorem victimHeld {w : Victim} (victim : l.victim p = some w) :
    w.reg = p ∧ l.holder p = some ⟨w.value, w.nextUse⟩ := by
  obtain ⟨o, held, rfl⟩ := Option.map_eq_some_iff.mp victim
  exact ⟨rfl, held⟩

theorem runsChoose {chosen : Victim → Ledger → Prop} (sound : Sound plan n l l.free)
    (full : l.free = [])
    (holds : ∀ w : Victim, Victim.best ((l.contenders plan).filterMap l.victim) = some w → chosen w l)
    (stop : ∀ e m, Stops plan n site l e m → stopped e m) :
    Runs plan n (Work.chooseVictim plan site) l chosen stopped := by
  refine runsGet fun s reflects => ?_
  have occupied : ∀ p ∈ s.contenders plan, ∃ o, l.holder p = some o := by
    intro p inside
    cases held : l.holder p with
    | some o => exact ⟨o, rfl⟩
    | none =>
      have spare := (sound.tables.empty p).mpr ⟨(memContenders inside).1, held⟩
      rw [full] at spare
      contradiction
  refine runsBind (runsVictims sound _ occupied ?_)
  cases best : Victim.best ((s.contenders plan).filterMap l.victim) with
  | some w =>
    rw [reflectsContenders reflects] at best
    exact runsBind (runsRecord (runsPure (holds w best)))
  | none =>
    refine runsThrow (stop _ _ (.crowded full fun p usable => ?_))
    rw [reflects.pinned]
    by_contra unpinned
    have candidate : p ∈ s.candidates plan :=
      List.mem_filter.mpr ⟨Reg.memBelow.mpr usable, by simpa using unpinned⟩
    obtain ⟨q, inside⟩ := List.exists_mem_of_ne_nil _
      (contendersNonempty (List.ne_nil_of_mem candidate))
    obtain ⟨o, held⟩ := occupied q inside
    have listed : _ ∈ (s.contenders plan).filterMap l.victim :=
      List.mem_filterMap.mpr ⟨q, inside, by rw [Ledger.victim, held, Option.map_some]⟩
    cases victims : (s.contenders plan).filterMap l.victim with
    | nil =>
      rw [victims] at listed
      contradiction
    | cons w ws =>
      rw [victims] at best
      contradiction

theorem runsTake (sound : Sound plan n l l.free)
    (pins : l.Pins)
    (head : l.rest = (site.handle, i) :: rest)
    (holds : ∀ p m, Takes plan site l p m → done p m)
    (stop : ∀ e m, Stops plan n site l e m → stopped e m) :
    Runs plan n (Work.takeRegister plan site) l done stopped := by
  refine runsGet fun s reflects => ?_
  rw [← reflects.free]
  cases free : l.free with
  | cons p ps =>
    have unpinned : s.pinned.contains p = false := by
      rw [← reflects.pinned, Bool.eq_false_iff]
      intro pinned
      exact pins p pinned ((sound.tables.empty p).mp (free ▸ List.mem_cons_self)).2
    refine runsBind (runsSet (m := {l with free := ps}) ?_ {reflects with free := rfl})
    simp only [unpinned, Bool.false_eq_true, ↓reduceIte]
    exact runsPure (holds _ _ (.free free))
  | nil =>
    refine runsBind (runsChoose sound free (fun w best => ?_) stop)
    obtain ⟨p, contends, victim⟩ := List.mem_filterMap.mp (bestMem best)
    obtain ⟨rfl, held⟩ := victimHeld victim
    have unpinned : l.pinned.contains w.reg = false := by
      rw [reflects.pinned]
      exact (memContenders (reflectsContenders reflects ▸ contends)).2
    exact runsBind (runsEvict sound free held head
      (fun m evicts => runsPure (holds _ m (.evicted free held unpinned evicts (best.trans victim.symm))))
      stop)

theorem runsRestore (saved : Saved plan n l) (known : v.number < n)
    (ready : (l.record v).status ≠ .dirty) (head : l.rest = (site.handle, i) :: rest)
    (holds : ∀ m, Brings plan site v p u l m → finish () m) :
    Runs plan n (Work.restore plan site v p) {l with
      record := Function.update l.record v {l.record v with home := some p}
      holder := Function.update l.holder p (some ⟨v, u⟩)} finish stopped := by
  refine runsBind (runsValue known ?_)
  simp only [Function.update_self]
  cases constant : (l.record v).constant with
  | some c =>
    refine runsBind (runsRecord (runsBind (runsInsert head fun h => runsBind (runsUpdateValue known
      (runsCount ?_)))))
    simp only [Function.update_idem, Function.update_self]
    simpa only [constant] using holds _ (.remade (h := h) constant)
  | none =>
    cases status : (l.record v).status with
    | unknown =>
      refine runsBind (runsRecord (runsUpdateValue known ?_))
      simp only [Function.update_idem, Function.update_self]
      simpa only [constant] using holds _ (.adopted constant status)
    | dirty => exact absurd status ready
    | clean =>
      obtain ⟨w, slot⟩ := Option.isSome_iff_exists.mp ((saved.kept v).clean status constant)
      obtain ⟨j, owner, -⟩ := (saved.slots v w).mp slot
      obtain ⟨a, address⟩ := Option.isSome_iff_exists.mp
        (saved.address (List.ne_nil_of_mem (List.mem_of_getElem? owner)))
      simp only [Work.addressRegister, address]
      refine runsBind (runsPure (runsBind (runsSpillSlot (w := w) known (by simpa using slot) ?_)))
      refine runsBind (runsRecord (runsBind (runsInsert head fun h => runsBind (runsInsert head
        fun k => runsBind (runsUpdateValue known (runsCount ?_))))))
      simp only [Function.update_idem, Function.update_self]
      simpa only [constant] using holds _ (.reloaded (h := h) (k := k) constant status slot address)

theorem runsPlaceInRegister (sound : Sound plan n l l.free)
    (pins : l.Pins) (known : v.number < n)
    (away : (l.record v).home = none) (head : l.rest = (site.handle, i) :: rest)
    (holds : ∀ p m, Takes plan site l p m → done p {m with
      record := Function.update m.record v {m.record v with home := some p}
      holder := Function.update m.holder p (some ⟨v, u⟩)})
    (stop : ∀ e m, Stops plan n site l e m → stopped e m) :
    Runs plan n (Work.placeInRegister plan site v u) l done stopped := by
  refine runsBind (runsTake sound pins head (fun p m takes => ?_) stop)
  have taken := ((takesSound sound takes).tables.empty p).mp List.mem_cons_self
  exact runsBind (runsRecord (runsBind (runsPure (runsBind (runsPlace known taken.1
    (takesAway takes away) taken.2 (runsPure (holds p m takes)))))))

theorem takesReady {m : Ledger} (takes : Takes plan site l p m)
    (ready : (l.record v).status ≠ .dirty) : (m.record v).status ≠ .dirty := by
  rcases takesRecord takes v with same | ⟨-, -, clean, -⟩
  · rwa [same]
  · simp [clean]

theorem runsFetch (sound : Sound plan n l l.free)
    (pins : l.Pins) (known : v.number < n)
    (ready : l.Ready v)
    (head : l.rest = (site.handle, i) :: rest)
    (holds : ∀ p m, Fetches plan site v u l p m → done p m)
    (stop : (l.record v).home = none → ∀ e m, Stops plan n site l e m → stopped e m) :
    Runs plan n (Work.fetch plan site v u) l done stopped := by
  refine runsBind (runsValue known ?_)
  cases home : (l.record v).home with
  | some p => exact runsPure (holds p l (.resident home))
  | none =>
    refine runsBind (runsPlaceInRegister sound pins known home head (fun p m takes => ?_)
      (stop home))
    exact runsBind (runsRestore (takesSound sound takes).saved known (takesReady takes (ready home))
      ((takesRest takes).1.trans head) fun k brings => runsPure (holds p k (.brought home takes brings)))

theorem runsAssign {slot : Slot} (head : l.rest = (site.handle, i) :: rest)
    (holds : finish () (l.assign slot p)) :
    Runs plan n (Work.assignSlot site.handle slot p) l finish stopped := by
  refine runsModify holds fun s reflects => {reflects with spells := ?_}
  have spells := reflects.spells
  rw [head] at spells
  simp only [Ledger.assign, head, List.modifyHead_cons]
  exact Chain.modifySpells _ spells

theorem runsRelease (sound : Sound plan n l l.free) (known : v.number < n)
    (holds : finish () (l.release v)) : Runs plan n (Work.release v) l finish stopped := by
  refine runsBind (runsValue known ?_)
  unfold Ledger.release at holds
  cases home : (l.record v).home with
  | none =>
    rw [home] at holds
    exact runsPure holds
  | some p =>
    rw [home] at holds
    obtain ⟨u, held⟩ := (sound.tables.home v p).mp home
    have usable := (sound.tables.held p _ held).1
    refine runsBind (runsRecord (runsBind (runsVacate known usable held (runsModify holds
      fun s reflects => {reflects with free := ?_}))))
    rw [reflects.free]

end
end Straightline.Allocation
