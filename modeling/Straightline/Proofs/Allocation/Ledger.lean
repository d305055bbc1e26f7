import Mathlib.Logic.Function.Basic
import Straightline.Allocation.Run
import Straightline.Proofs.Entries

/-! The ledger of an allocation. It says what the state of an allocation says, with tables read as
functions, the spill slots as the list of the values that own them, and the block as the code before
the point that the walk has reached and the code from there on. Work on a state is followed on the
ledger that it reflects. -/
namespace Straightline.Allocation

structure Ledger where
  record : VirtualReg → Value
  holder : PhysicalReg → Option Occupant
  free : List PhysicalReg
  pinned : RegisterSet
  owners : List VirtualReg
  stats : Stats
  done : List (Handle × Instr)
  rest : List (Handle × Instr)

def Plan.slotAt (plan : Plan) (j : Nat) : Word :=
  UInt32.ofNat (plan.options.base.toNat + slotSize * j)

structure Reflects (plan : Plan) (n : Nat) (s : State) (l : Ledger) : Prop where
  values : s.values.size = n
  registers : s.registers.size = plan.usable
  record : ∀ v, l.record v = s.values[v.number]?.getD {}
  holder : ∀ p, l.holder p = s.registers[p.number]?.join
  free : l.free = s.free
  pinned : l.pinned = s.pinned
  slots : l.owners.length = s.slots
  next : s.nextAddress.toNat = plan.options.base.toNat + slotSize * l.owners.length
  stats : l.stats = s.stats
  spells : s.block.Spells (l.done ++ l.rest)

/-- From every state that reflects `l`, the work ends in one that reflects a ledger as described. -/
def Runs (plan : Plan) (n : Nat) {α : Type} (work : Work α) (l : Ledger)
    (done : α → Ledger → Prop) (stopped : Stop → Ledger → Prop) : Prop :=
  ∀ s, Reflects plan n s l → match work s with
    | .ok a t => ∃ m, Reflects plan n t m ∧ done a m
    | .error e t => ∃ m, Reflects plan n t m ∧ stopped e m

section
variable {plan : Plan} {n : Nat} {α β : Type} {l : Ledger} {done : α → Ledger → Prop}
  {after : β → Ledger → Prop} {finish : Unit → Ledger → Prop} {stopped : Stop → Ledger → Prop}

theorem runsPure {a : α} (holds : done a l) : Runs plan n (pure a) l done stopped :=
  fun _ reflects => ⟨l, reflects, holds⟩

theorem runsThrow {e : Stop} (holds : stopped e l) : Runs plan n (throw e) l done stopped :=
  fun _ reflects => ⟨l, reflects, holds⟩

theorem runsBind {x : Work α} {f : α → Work β}
    (first : Runs plan n x l (fun a m => Runs plan n (f a) m after stopped) stopped) :
    Runs plan n (x >>= f) l after stopped := by
  intro s reflects
  have ran := first s reflects
  simp only [bind, EStateM.bind]
  cases outcome : x s with
  | ok a t =>
    rw [outcome] at ran
    obtain ⟨m, reflects, holds⟩ := ran
    exact holds t reflects
  | error e t =>
    rw [outcome] at ran
    exact ran

theorem runsMono {x : Work α} {done' : α → Ledger → Prop} {stopped' : Stop → Ledger → Prop}
    (runs : Runs plan n x l done stopped) (weaker : ∀ a m, done a m → done' a m)
    (weakerStop : ∀ e m, stopped e m → stopped' e m) : Runs plan n x l done' stopped' := by
  intro s reflects
  have ran := runs s reflects
  cases outcome : x s with
  | ok a t =>
    rw [outcome] at ran
    obtain ⟨m, reflects, holds⟩ := ran
    exact ⟨m, reflects, weaker a m holds⟩
  | error e t =>
    rw [outcome] at ran
    obtain ⟨m, reflects, holds⟩ := ran
    exact ⟨m, reflects, weakerStop e m holds⟩

theorem runsModify {f : State → State} {m : Ledger} (holds : finish () m)
    (step : ∀ s, Reflects plan n s l → Reflects plan n (f s) m) :
    Runs plan n (modify f) l finish stopped :=
  fun s reflects => ⟨m, step s reflects, holds⟩

theorem runsGet {f : State → Work α}
    (step : ∀ s, Reflects plan n s l → Runs plan n (f s) l done stopped) :
    Runs plan n (get >>= f) l done stopped :=
  fun s reflects => step s reflects s reflects

theorem runsSet {t : State} {m : Ledger} (holds : finish () m) (reflects : Reflects plan n t m) :
    Runs plan n (set t) l finish stopped :=
  fun _ _ => ⟨m, reflects, holds⟩

theorem runsValue {v : VirtualReg} {done : Value → Ledger → Prop} (bound : v.number < n)
    (holds : done (l.record v) l) : Runs plan n (Work.value v) l done stopped := by
  refine runsGet fun s reflects => ?_
  have inside : v.number < s.values.size := by rw [reflects.values]; exact bound
  have there : s.values[v.number]? = some (l.record v) := by
    rw [reflects.record, Array.getElem?_eq_getElem inside, Option.getD_some]
  rw [there]
  exact runsPure holds

theorem runsOccupant {p : PhysicalReg} {done : Option Occupant → Ledger → Prop}
    (bound : p.number < plan.usable) (holds : done (l.holder p) l) :
    Runs plan n (Work.occupant p) l done stopped := by
  refine runsGet fun s reflects => ?_
  have inside : p.number < s.registers.size := by rw [reflects.registers]; exact bound
  have there : s.registers[p.number]? = some (l.holder p) := by
    rw [reflects.holder, Array.getElem?_eq_getElem inside, Option.join_some]
  rw [there]
  exact runsPure holds

theorem runsRecord {e : Event} (holds : finish () l) :
    Runs plan n (Work.record e) l finish stopped :=
  runsModify holds fun _ reflects => {reflects with}

theorem runsCount {f : Stats → Stats} (holds : finish () {l with stats := f l.stats}) :
    Runs plan n (Work.count f) l finish stopped :=
  runsModify holds fun _ reflects => {reflects with stats := congrArg f reflects.stats}

theorem readModify {m : Naming} {xs : Array α} {r : Reg m} (read : Option α → α)
    (reads : ∀ x, read (some x) = x) (inside : r.number < xs.size) (f : α → α) (q : Reg m) :
    Function.update (fun q : Reg m => read xs[q.number]?) r (f (read xs[r.number]?)) q =
      read (xs.modify r.number f)[q.number]? := by
  rw [Array.getElem?_modify]
  by_cases same : q = r
  · subst same
    rw [Function.update_self, if_pos rfl, Array.getElem?_eq_getElem inside, Option.map_some, reads,
      reads]
  · have differ : r.number ≠ q.number := fun equal => same (Reg.numberInjective equal).symm
    rw [Function.update_of_ne same, if_neg differ]

theorem runsUpdateValue {v : VirtualReg} {f : Value → Value} (bound : v.number < n)
    (holds : finish () {l with record := Function.update l.record v (f (l.record v))}) :
    Runs plan n (Work.updateValue v f) l finish stopped := by
  refine runsModify holds fun s reflects => {reflects with values := ?_, record := fun w => ?_}
  · rw [Array.size_modify]
    exact reflects.values
  · have inside : v.number < s.values.size := by rw [reflects.values]; exact bound
    have table : l.record = fun v => s.values[v.number]?.getD {} := funext reflects.record
    simp only [table]
    exact readModify (fun x : Option Value => x.getD {}) (fun _ => rfl) inside f w

theorem runsUpdateRegister {p : PhysicalReg} {f : Option Occupant → Option Occupant}
    (bound : p.number < plan.usable)
    (holds : finish () {l with holder := Function.update l.holder p (f (l.holder p))}) :
    Runs plan n (Work.updateRegister p f) l finish stopped := by
  refine runsModify holds fun s reflects => {reflects with registers := ?_, holder := fun q => ?_}
  · rw [Array.size_modify]
    exact reflects.registers
  · have inside : p.number < s.registers.size := by rw [reflects.registers]; exact bound
    have table : l.holder = fun p => s.registers[p.number]?.join := funext reflects.holder
    simp only [table]
    exact readModify Option.join (fun _ => rfl) inside f q

theorem runsPlace {v : VirtualReg} {p : PhysicalReg} {u : NextUse} (known : v.number < n)
    (usable : p.number < plan.usable) (away : (l.record v).home = none) (empty : l.holder p = none)
    (holds : finish () {l with
      record := Function.update l.record v {l.record v with home := some p}
      holder := Function.update l.holder p (some ⟨v, u⟩)}) :
    Runs plan n (Work.place v p u) l finish stopped := by
  refine runsBind (runsValue known ?_)
  simp only [away, Option.isSome_none, Bool.false_eq_true, ↓reduceIte]
  refine runsBind (runsOccupant usable ?_)
  simp only [empty, Option.isSome_none, Bool.false_eq_true, ↓reduceIte]
  exact runsBind (runsUpdateValue known (runsUpdateRegister usable holds))

theorem runsVacate {p : PhysicalReg} {o : Occupant} (known : o.value.number < n)
    (usable : p.number < plan.usable) (held : l.holder p = some o)
    (holds : finish () {l with
      record := Function.update l.record o.value {l.record o.value with home := none}
      holder := Function.update l.holder p none}) :
    Runs plan n (Work.vacate p) l finish stopped := by
  refine runsBind (runsOccupant usable ?_)
  rw [held]
  exact runsBind (runsPure (runsBind (runsUpdateValue known (runsUpdateRegister usable holds))))

theorem runsInsert {site : Site} {i j : Instr} {rest : List (Handle × Instr)}
    (head : l.rest = (site.handle, i) :: rest)
    (holds : ∀ h, finish () {l with
      stats := {l.stats with inserted := l.stats.inserted + 1}
      done := l.done ++ [(h, j)]}) :
    Runs plan n (Work.insert site j) l finish stopped := by
  refine runsBind (runsRecord (runsGet fun s reflects => ?_))
  have spells := reflects.spells
  rw [head] at spells
  obtain ⟨d, inserted, spelled⟩ := Chain.insertSpells spells j
  rw [inserted]
  refine runsBind (runsPure (runsBind (runsSet (m := {l with done := l.done ++ [(s.block.fresh, j)]})
    (runsBind (runsRecord (runsCount (holds s.block.fresh)))) {reflects with spells := ?_})))
  rw [head]
  simpa using spelled

theorem runsSpillSlot {v : VirtualReg} {w : Word} {done : Word → Ledger → Prop}
    (known : v.number < n) (slot : (l.record v).slot = some w) (holds : done w l) :
    Runs plan n (Work.spillSlot v) l done stopped := by
  refine runsBind (runsValue known ?_)
  rw [slot]
  exact runsPure holds

theorem runsFreshSlot {v : VirtualReg} {done : Word → Ledger → Prop}
    (known : v.number < n) (slotless : (l.record v).slot = none)
    (holds : plan.options.base.toNat + slotSize * (l.owners.length + 1) < 4294967296 →
      done (plan.slotAt l.owners.length) {l with
        record := Function.update l.record v
          {l.record v with slot := some (plan.slotAt l.owners.length)}
        owners := l.owners ++ [v]})
    (stop : 4294967296 ≤ plan.options.base.toNat + slotSize * (l.owners.length + 1) →
      stopped (.fault .spillAddressOverflow) l) :
    Runs plan n (Work.spillSlot v) l done stopped := by
  refine runsBind (runsValue known ?_)
  rw [slotless]
  refine runsGet fun s reflects => ?_
  have next : s.nextAddress.toNat + slotSize =
      plan.options.base.toNat + slotSize * (l.owners.length + 1) := by
    rw [reflects.next, Nat.mul_succ, Nat.add_assoc]
  have address : s.nextAddress = plan.slotAt l.owners.length := by
    rw [Plan.slotAt, ← reflects.next, UInt32.ofNat_toNat]
  simp only [next]
  by_cases large : 4294967296 ≤ plan.options.base.toNat + slotSize * (l.owners.length + 1)
  · rw [if_pos large]
    exact runsThrow (stop large)
  · rw [if_neg large]
    have room : plan.options.base.toNat + slotSize * (l.owners.length + 1) < 4294967296 := by omega
    refine runsBind (runsSet (m := {l with owners := l.owners ++ [v]}) (runsBind (runsUpdateValue
      known (runsBind (runsRecord (runsPure ?_))))) {reflects with slots := ?_, next := ?_})
    · rw [address]
      exact holds room
    · rw [List.length_append, List.length_singleton, reflects.slots]
    · rw [List.length_append, List.length_singleton]
      exact UInt32.toNat_ofNat_of_lt room

end
end Straightline.Allocation
