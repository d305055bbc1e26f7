import Straightline.Proofs.Allocation.Steps
import Straightline.Proofs.Renaming.Restating

/-! Two allocations side by side. The work looks at no address of a spill slot, and of a block it looks
at the operation, the constant and the ranges of one instruction at a time. So two allocations take the
same steps as long as these agree, unless the one with the higher addresses runs out of them. How the
blocks, the logs and the stops of the two compare is left open: it is enough that the few changes which
the work makes to them keep it up. -/
namespace Straightline

theorem Instr.sameReads {i j : Instr} (same : i.SameRanges j) : j.lastReads = i.lastReads := by
  have reads : ∀ slot ∈ i.opcode.reads, slot ∈ i.opcode.slots := fun slot => List.mem_append_left _
  simp only [lastReads, readOperands, same.opcode, List.filter_map, List.filterMap_map]
  have last : i.opcode.reads.filter ((fun op => decide (op.nextUse = .never)) ∘ j.operand) =
      i.opcode.reads.filter ((fun op => decide (op.nextUse = .never)) ∘ i.operand) :=
    List.filter_congr fun slot inside => by
      simp only [Function.comp_apply, same.nextUse slot (reads slot inside)]
  rw [last]
  exact List.filterMap_congr fun slot inside =>
    same.virtual slot (reads slot (List.mem_of_mem_filter inside))

namespace Allocation

def Work.leaves {α : Type} (work : Work α) (s : State) : State :=
  match work s with
  | .ok _ t => t
  | .error _ t => t

def Work.allocateEach (plan : Plan) (handles : List Handle) : Work Unit := do
  handles.forM (allocateInstr plan)
  ofExcept ((← get).auditAll plan)

section
variable {α β : Type} {s t : State}

theorem workGet (f : State → Work α) (s : State) : (get >>= f : Work α) s = f s s := rfl

theorem workOk {x : Work α} {f : α → Work β} {a : α} (ok : x s = .ok a t) :
    (x >>= f) s = f a t := by
  simp only [bind, EStateM.bind, ok]

theorem workError {x : Work α} {f : α → Work β} {e : Stop} (failed : x s = .error e t) :
    (x >>= f) s = .error e t := by
  simp only [bind, EStateM.bind, failed]

theorem leavesOk {x : Work α} {a : α} (ok : x s = .ok a t) : x.leaves s = t := by
  simp only [Work.leaves, ok]

theorem leavesError {x : Work α} {e : Stop} (failed : x s = .error e t) : x.leaves s = t := by
  simp only [Work.leaves, failed]

end

inductive Both {α β : Type} (related : α → β → Prop) : Except Fault α → Except Fault β → Prop where
  | ok {a : α} {b : β} (holds : related a b) : Both related (.ok a) (.ok b)
  | error (f : Fault) : Both related (.error f) (.error f)

def Value.shift (d : Word) (x : Value) : Value := {x with slot := x.slot.map (· + d)}

def Event.taking : Event → Bool
  | chosen _ | evictedConstant _ _ | evictedClean _ _ | evictedStored _ _ _ => true
  | _ => false

/-- What two allocations have in common. The spill slots of the second lie higher by `shift`, and both
keep values in registers of `regs` only. -/
structure Coupling where
  plan : Plan
  shift : Word
  regs : PhysicalReg → Prop
  handles : Handle → Handle → Prop
  sites : Site → Site → Prop
  slots : Handle → Handle → Slot → Prop
  blocks : Block → Block → Prop
  logs : List Event → List Event → Prop
  stops : Stop → Stop → Prop

namespace Coupling

inductive Code (c : Coupling) (line line' : Nat) : Instr → Instr → Prop where
  | address {p : PhysicalReg} (w : Word) (address : c.plan.address = some p) : Code c line line'
      (.insertedLoadI line w (some p)) (.insertedLoadI line' (w + c.shift) (some p))
  | remade {p : PhysicalReg} (w : Word) (usable : c.regs p) : Code c line line'
      (.insertedLoadI line w (some p)) (.insertedLoadI line' w (some p))
  | store (p a : PhysicalReg) : Code c line line'
      (.insertedStore line (some p) (some a)) (.insertedStore line' (some p) (some a))
  | load (a p : PhysicalReg) : Code c line line'
      (.insertedLoad line (some a) (some p)) (.insertedLoad line' (some a) (some p))

structure At (c : Coupling) (h h' : Handle) (i j : Instr) : Prop extends i.SameRanges j where
  constant : i.opcode.hasConstant = true → j.constant = i.constant
  site : c.sites ⟨h, i.line⟩ ⟨h', j.line⟩
  slots : ∀ slot ∈ i.opcode.slots, c.slots h h' slot

structure Lawful (c : Coupling) : Prop where
  regs : ∀ p : PhysicalReg, p.number < c.plan.usable → c.regs p
  get : ∀ {h h' b d}, c.handles h h' → c.blocks b d → Both (c.At h h') (b.get (some h)) (d.get (some h'))
  insert : ∀ {σ σ' i j b d}, c.sites σ σ' → c.Code σ.line σ'.line i j → c.blocks b d →
    Both c.blocks (b.insertBefore (some σ.handle) i) (d.insertBefore (some σ'.handle) j)
  assign : ∀ {h h' slot b d} p, c.slots h h' slot → c.blocks b d →
    c.blocks (b.modify h (Instr.setPhysical · slot p)) (d.modify h' (Instr.setPhysical · slot p))
  valid : ∀ {b d}, c.blocks b d → d.validate = b.validate
  tells : ∀ {e f log log'}, e.taking = false → f.taking = false → c.logs log log' →
    c.logs (e :: log) (f :: log')
  fault : ∀ f, c.stops (.fault f) (.fault f)
  spill : ∀ {σ σ'} v, c.sites σ σ' →
    c.stops (.error (.unexpectedSpill σ.line v)) (.error (.unexpectedSpill σ'.line v))

structure Chooses (c : Coupling) : Prop extends c.Lawful where
  choice : ∀ {e f log log'}, c.logs log log' → c.logs (e :: log) (f :: log')
  crowded : ∀ {σ σ'}, c.sites σ σ' →
    c.stops (.error (.tooManyLive σ.handle σ.line)) (.error (.tooManyLive σ'.handle σ'.line))

end Coupling

inductive Coupled (c : Coupling) : State → State → Prop where
  | mk (s : State) {d : Block} {log : List Event} (blocks : c.blocks s.block d) (logs : c.logs s.log log)
      (free : ∀ p ∈ s.free, c.regs p)
      (homes : ∀ (v : Nat) x p, s.values[v]? = some x → x.home = some p → c.regs p) :
      Coupled c s {s with
        block := d
        values := s.values.map (Value.shift c.shift)
        nextAddress := s.nextAddress + c.shift
        log}

def State.Fits (d : Word) (s : State) : Prop := s.nextAddress.toNat + d.toNat < 4294967296

inductive Ends (c : Coupling) {α : Type} (x y : Work α) (s t : State) : Prop where
  | ok {a : α} {s' t' : State} (first : x s = .ok a s') (second : y t = .ok a t')
      (fits : s'.Fits c.shift) (coupled : Coupled c s' t') : Ends c x y s t
  | error {e f : Stop} {s' t' : State} (first : x s = .error e s') (second : y t = .error f t')
      (stops : c.stops e f) (fits : s'.Fits c.shift) (coupled : Coupled c s' t') : Ends c x y s t
  | exhausted {t' : State} (second : y t = .error (.fault .spillAddressOverflow) t')
      (large : ¬ (x.leaves s).Fits c.shift) : Ends c x y s t

/-- Where the second has run out of addresses the first goes on alone, and addresses never get lower. -/
structure Agrees (c : Coupling) {α : Type} (post : α → Prop) (x y : Work α) : Prop where
  alone : ∀ s t, Coupled c s t → (∀ a s', x s = .ok a s' → post a) ∧
    (∃ t', Coupled c (x.leaves s) t') ∧ ((x.leaves s).Fits c.shift → s.Fits c.shift)
  ends : ∀ s t, Coupled c s t → s.Fits c.shift → Ends c x y s t

section
variable {c : Coupling} {α β : Type} {post : α → Prop} {post' : β → Prop} {s t : State} {σ σ' : Site}

theorem agreesPure {a : α} (holds : post a) : Agrees c post (pure a) (pure a) where
  alone s t coupled := ⟨fun b s' ok => by cases ok; exact holds, ⟨t, coupled⟩, id⟩
  ends s t coupled fits := .ok rfl rfl fits coupled

theorem agreesThrow {e f : Stop} (stops : c.stops e f) :
    Agrees c post (throw e : Work α) (throw f) where
  alone s t coupled := ⟨fun _ _ ok => (by cases ok), ⟨t, coupled⟩, id⟩
  ends s t coupled fits := .error rfl rfl stops fits coupled

theorem agreesBind {x y : Work α} {f g : α → Work β} (first : Agrees c post x y)
    (next : ∀ a, post a → Agrees c post' (f a) (g a)) : Agrees c post' (x >>= f) (y >>= g) := by
  have onward : ∀ s t a s', Coupled c s t → x s = .ok a s' → (x >>= f).leaves s = (f a).leaves s' ∧
      (∃ t', Coupled c s' t') ∧ post a ∧ (s'.Fits c.shift → s.Fits c.shift) := by
    intro s t a s' coupled ok
    obtain ⟨holds, coupled', grows⟩ := first.alone s t coupled
    rw [leavesOk ok] at coupled' grows
    exact ⟨by simp only [Work.leaves, workOk ok], coupled', holds a s' ok, grows⟩
  refine ⟨fun s t coupled => ?_, fun s t coupled fits => ?_⟩
  · cases ran : x s with
    | ok a s' =>
      obtain ⟨leaves, ⟨t', coupled'⟩, holds, grows⟩ := onward s t a s' coupled ran
      obtain ⟨holds', coupled'', grows'⟩ := (next a holds).alone s' t' coupled'
      rw [leaves, workOk ran]
      exact ⟨holds', coupled'', fun fits => grows (grows' fits)⟩
    | error e s' =>
      obtain ⟨-, coupled', grows⟩ := first.alone s t coupled
      rw [leavesError ran] at coupled' grows
      rw [leavesError (workError ran), workError ran]
      exact ⟨fun _ _ ended => (by cases ended), coupled', grows⟩
  · cases first.ends s t coupled fits with
    | @ok a s' t' ran ran' fits' coupled' =>
      obtain ⟨leaves, -, holds, -⟩ := onward s t a s' coupled ran
      cases (next a holds).ends s' t' coupled' fits' with
      | ok ended ended' fits'' coupled'' =>
        exact .ok ((workOk ran).trans ended) ((workOk ran').trans ended') fits'' coupled''
      | error ended ended' stops fits'' coupled'' =>
        exact .error ((workOk ran).trans ended) ((workOk ran').trans ended') stops fits'' coupled''
      | exhausted ended' large => exact .exhausted ((workOk ran').trans ended') (leaves ▸ large)
    | error ran ran' stops fits' coupled' =>
      exact .error (workError ran) (workError ran') stops fits' coupled'
    | exhausted ran' large =>
      refine .exhausted (workError ran') fun fits' => large ?_
      cases ran : x s with
      | ok a s' =>
        obtain ⟨leaves, ⟨t', coupled'⟩, holds, -⟩ := onward s t a s' coupled ran
        rw [leaves] at fits'
        rw [leavesOk ran]
        exact ((next a holds).alone s' t' coupled').2.2 fits'
      | error e s' =>
        rw [leavesError (workError ran)] at fits'
        rwa [leavesError ran]

theorem agreesModify {f g : State → State} (same : ∀ s, (f s).nextAddress = s.nextAddress)
    (step : ∀ s t, Coupled c s t → Coupled c (f s) (g t)) :
    Agrees c (fun _ => True) (modify f) (modify g) := by
  have fits : ∀ s, (f s).Fits c.shift ↔ s.Fits c.shift := fun s => by
    rw [State.Fits, same, State.Fits]
  exact ⟨fun s t coupled => ⟨fun _ _ _ => trivial, ⟨g t, step s t coupled⟩, (fits s).mp⟩,
    fun s t coupled fit => .ok rfl rfl ((fits s).mpr fit) (step s t coupled)⟩

theorem agreesAt {x y : Work α} (here : ∀ s t, Coupled c s t →
    ∃ x' y' : Work α, x s = x' s ∧ y t = y' t ∧ Agrees c post x' y') : Agrees c post x y := by
  refine ⟨fun s t coupled => ?_, fun s t coupled fits => ?_⟩
  · obtain ⟨x', y', same, -, agrees⟩ := here s t coupled
    rw [same, Work.leaves, same]
    exact agrees.alone s t coupled
  · obtain ⟨x', y', same, same', agrees⟩ := here s t coupled
    cases agrees.ends s t coupled fits with
    | ok ended ended' fits' coupled' => exact .ok (same.trans ended) (same'.trans ended') fits' coupled'
    | error ended ended' stops fits' coupled' =>
      exact .error (same.trans ended) (same'.trans ended') stops fits' coupled'
    | exhausted ended' large =>
      refine .exhausted (same'.trans ended') ?_
      rw [Work.leaves, same]
      exact large

theorem agreesRead {f g : State → Work α} (next : ∀ s t, Coupled c s t → Agrees c post (f s) (g t)) :
    Agrees c post (get >>= f) (get >>= g) :=
  agreesAt fun s t coupled => ⟨f s, g t, rfl, rfl, next s t coupled⟩

theorem agreesOk {a b : α} {f g : α → Work β} (next : Agrees c post' (f a) (g b)) :
    Agrees c post' (Work.ofExcept (.ok a) >>= f) (Work.ofExcept (.ok b) >>= g) := next

theorem agreesPairs {f : α → Work Unit} {g : β → Work Unit} (es : List (α × β))
    (each : ∀ e ∈ es, Agrees c (fun _ => True) (f e.1) (g e.2)) :
    Agrees c (fun _ => True) ((es.map Prod.fst).forM f) ((es.map Prod.snd).forM g) := by
  induction es with
  | nil => exact agreesPure trivial
  | cons e es ih =>
    obtain ⟨first, rest⟩ := List.forall_mem_cons.mp each
    exact agreesBind first fun _ _ => ih rest

theorem agreesForM {f g : α → Work Unit} (xs : List α)
    (each : ∀ x ∈ xs, Agrees c (fun _ => True) (f x) (g x)) :
    Agrees c (fun _ => True) (xs.forM f) (xs.forM g) := by
  have agrees := agreesPairs (f := f) (g := g) (xs.map fun x => (x, x)) fun e inside => by
    obtain ⟨x, listed, rfl⟩ := List.mem_map.mp inside
    exact each x listed
  simpa only [List.map_map, Function.comp_def, List.map_id'] using agrees

theorem agreesCount (f : Stats → Stats) : Agrees c (fun _ => True) (Work.count f) (Work.count f) := by
  refine agreesModify (fun _ => rfl) fun s t coupled => ?_
  cases coupled with
  | mk blocks logs free homes => exact .mk {s with stats := f s.stats} blocks logs free homes

theorem agreesUpdateRegister (p : PhysicalReg) (f : Option Occupant → Option Occupant) :
    Agrees c (fun _ => True) (Work.updateRegister p f) (Work.updateRegister p f) := by
  refine agreesModify (fun _ => rfl) fun s t coupled => ?_
  cases coupled with
  | mk blocks logs free homes =>
    exact .mk {s with registers := s.registers.modify p.number f} blocks logs free homes

theorem agreesPins (f : RegisterSet → RegisterSet) :
    Agrees c (fun _ => True) (modify fun s => {s with pinned := f s.pinned})
      (modify fun s => {s with pinned := f s.pinned}) := by
  refine agreesModify (fun _ => rfl) fun s t coupled => ?_
  cases coupled with
  | mk blocks logs free homes => exact .mk {s with pinned := f s.pinned} blocks logs free homes

theorem agreesFree {ps : List PhysicalReg} (below : ∀ p ∈ ps, c.regs p) :
    Agrees c (fun _ => True) (modify fun s => {s with free := ps})
      (modify fun s => {s with free := ps}) := by
  refine agreesModify (fun _ => rfl) fun s t coupled => ?_
  cases coupled with
  | mk blocks logs free homes => exact .mk {s with free := ps} blocks logs below homes

theorem agreesSetBlock {b d : Block} (blocks : c.blocks b d) :
    Agrees c (fun _ => True) (modify fun s => {s with block := b})
      (modify fun s => {s with block := d}) := by
  refine agreesModify (fun _ => rfl) fun s t coupled => ?_
  cases coupled with
  | mk _ logs free homes => exact .mk {s with block := b} blocks logs free homes

theorem modifyMap {f : α → β} {g : α → α} {g' : β → β} (commutes : ∀ x, f (g x) = g' (f x))
    (xs : Array α) (i : Nat) : (xs.modify i g).map f = (xs.map f).modify i g' := by
  refine Array.ext_getElem? fun j => ?_
  simp only [Array.getElem?_map, Array.getElem?_modify]
  split
  · cases xs[j]? <;> simp [commutes]
  · rfl

theorem modifyHomes {regs : PhysicalReg → Prop} {xs : Array Value} {f : Value → Value}
    (old : ∀ (v : Nat) x p, xs[v]? = some x → x.home = some p → regs p)
    (new : ∀ x p, (f x).home = some p → x.home = some p ∨ regs p) (v : Nat) :
    ∀ (w : Nat) x p, (xs.modify v f)[w]? = some x → x.home = some p → regs p := by
  intro w x p found home
  rw [Array.getElem?_modify] at found
  split at found
  · obtain ⟨y, there, rfl⟩ := Option.map_eq_some_iff.mp found
    exact (new y p home).elim (old w y p there) id
  · exact old w x p found home

theorem agreesUpdateValue (v : VirtualReg) {f g : Value → Value}
    (commutes : ∀ x, (f x).shift c.shift = g (x.shift c.shift))
    (new : ∀ x p, (f x).home = some p → x.home = some p ∨ c.regs p) :
    Agrees c (fun _ => True) (Work.updateValue v f) (Work.updateValue v g) := by
  refine agreesModify (fun _ => rfl) fun s t coupled => ?_
  cases coupled with
  | @mk d log blocks logs free homes =>
    have step : Coupled c {s with values := s.values.modify v.number f} _ :=
      .mk {s with values := s.values.modify v.number f} blocks logs free (modifyHomes homes new v.number)
    simp only [modifyMap commutes] at step
    exact step

theorem agreesStatus (v : VirtualReg) (status : Status) : Agrees c (fun _ => True)
    (Work.updateValue v fun x => {x with status}) (Work.updateValue v fun x => {x with status}) :=
  agreesUpdateValue v (fun _ => rfl) fun _ _ home => .inl home

end

section
variable {c : Coupling} (laws : c.Lawful) {α β : Type} {post : α → Prop} {post' : β → Prop}
  {s t : State} {σ σ' : Site}
include laws

theorem agreesOfExcept (x : Except Fault α) :
    Agrees c (fun _ => True) (Work.ofExcept x) (Work.ofExcept x) := by
  cases x with
  | ok a => exact agreesPure trivial
  | error f => exact agreesThrow (laws.fault f)

theorem agreesFail (f : Fault) (next next' : α → Work β) :
    Agrees c post' (Work.fail f >>= next) (Work.fail f >>= next') where
  alone s t coupled := ⟨fun _ _ ok => (by cases ok), ⟨t, coupled⟩, id⟩
  ends s t coupled fits := .error rfl rfl (laws.fault f) fits coupled

theorem agreesRecord {e e' : Event} (plain : e.taking = false) (plain' : e'.taking = false) :
    Agrees c (fun _ => True) (Work.record e) (Work.record e') := by
  refine agreesModify (fun _ => rfl) fun s t coupled => ?_
  cases coupled with
  | mk blocks logs free homes =>
    exact .mk {s with log := e :: s.log} blocks (laws.tells plain plain' logs) free homes

theorem agreesValue (v : VirtualReg) {f g : Value → Work α}
    (next : ∀ x : Value, (∀ p, x.home = some p → c.regs p) →
      Agrees c post (f x) (g (x.shift c.shift))) :
    Agrees c post (Work.value v >>= f) (Work.value v >>= g) := by
  have bound : ∀ {h : State → Work Value} {k : Value → Work α},
      ((get >>= h) >>= k : Work α) = get >>= fun s => h s >>= k := rfl
  unfold Work.value
  rw [bound, bound]
  refine agreesRead fun s t coupled => ?_
  cases coupled with
  | mk blocks logs free homes =>
    rw [Array.getElem?_map]
    cases found : s.values[v.number]? with
    | none =>
      rw [Array.size_map]
      exact agreesFail laws _ _ _
    | some x => exact next x fun p home => homes v.number x p found home

theorem agreesOccupant (p : PhysicalReg) :
    Agrees c (fun _ => True) (Work.occupant p) (Work.occupant p) := by
  refine agreesRead fun s t coupled => ?_
  cases coupled with
  | mk blocks logs free homes =>
    dsimp only
    cases s.registers[p.number]? with
    | some x => exact agreesPure trivial
    | none => exact agreesThrow (laws.fault _)

theorem agreesPlace (v : VirtualReg) {p : PhysicalReg} (u : NextUse) (usable : c.regs p) :
    Agrees c (fun _ => True) (Work.place v p u) (Work.place v p u) := by
  refine agreesValue laws v fun x _ => ?_
  rw [Value.shift]
  split
  · exact agreesFail laws _ _ _
  · refine agreesBind (agreesOccupant laws p) fun o _ => ?_
    split
    · exact agreesFail laws _ _ _
    · refine agreesBind (agreesUpdateValue v (fun x => rfl) fun x q home => .inr ?_)
        fun _ _ => agreesUpdateRegister p _
      rwa [← Option.some.inj home]

theorem agreesVacate (p : PhysicalReg) :
    Agrees c (fun _ => True) (Work.vacate p) (Work.vacate p) :=
  agreesBind (agreesOccupant laws p) fun o _ => agreesBind (agreesOfExcept laws (present o))
    fun o _ => agreesBind (agreesUpdateValue o.value (fun _ => rfl) (by simp))
      fun _ _ => agreesUpdateRegister p _

theorem agreesRelease (v : VirtualReg) :
    Agrees c (fun _ => True) (Work.release v) (Work.release v) := by
  refine agreesValue laws v fun x homes => ?_
  rw [Value.shift]
  cases home : x.home with
  | none => exact agreesPure trivial
  | some p =>
    refine agreesBind (agreesRecord laws rfl rfl) fun _ _ => agreesBind (agreesVacate laws p)
      fun _ _ => agreesModify (fun _ => rfl) fun s t coupled => ?_
    cases coupled with
    | mk blocks logs free homes' =>
      exact .mk {s with free := p :: s.free} blocks logs
        (List.forall_mem_cons.mpr ⟨homes p home, free⟩) homes'

omit laws in
theorem valueOk {v : VirtualReg} {x : Value} (found : s.values[v.number]? = some x) :
    Work.value v s = .ok x s := by
  unfold Work.value
  rw [workGet, found]
  rfl

omit laws in
theorem valueLost {v : VirtualReg} (lost : s.values[v.number]? = none) :
    Work.value v s = .error (.fault (.outOfBounds s.values.size v.number)) s := by
  unfold Work.value
  rw [workGet, lost]
  rfl

omit laws in
theorem spillSlotLost {v : VirtualReg} (lost : s.values[v.number]? = none) :
    Work.spillSlot v s = .error (.fault (.outOfBounds s.values.size v.number)) s :=
  workError (valueLost lost)

omit laws in
theorem spillSlotKnown {v : VirtualReg} {x : Value} {w : Word}
    (found : s.values[v.number]? = some x) (slot : x.slot = some w) :
    Work.spillSlot v s = .ok w s := by
  unfold Work.spillSlot
  rw [workOk (valueOk found), slot]
  rfl

omit laws in
theorem spillSlotOver {v : VirtualReg} {x : Value} (found : s.values[v.number]? = some x)
    (slotless : x.slot = none) (large : 4294967296 ≤ s.nextAddress.toNat + slotSize) :
    Work.spillSlot v s = .error (.fault .spillAddressOverflow) s := by
  unfold Work.spillSlot
  rw [workOk (valueOk found), slotless]
  dsimp only
  rw [workGet, if_pos large]
  rfl

def State.giveSlot (s : State) (v : VirtualReg) : State :=
  {s with
    nextAddress := UInt32.ofNat (s.nextAddress.toNat + slotSize)
    slots := s.slots + 1
    values := s.values.modify v.number fun x => {x with slot := some s.nextAddress}
    log := .slotGiven v s.nextAddress :: s.log}

omit laws in
theorem spillSlotFresh {v : VirtualReg} {x : Value} (found : s.values[v.number]? = some x)
    (slotless : x.slot = none) (room : s.nextAddress.toNat + slotSize < 4294967296) :
    Work.spillSlot v s = .ok s.nextAddress (s.giveSlot v) := by
  unfold Work.spillSlot
  rw [workOk (valueOk found), slotless]
  dsimp only
  rw [workGet, if_neg (Nat.not_le.mpr room)]
  rfl

omit laws in
theorem giveSlotNext (v : VirtualReg) (room : s.nextAddress.toNat + slotSize < 4294967296) :
    (s.giveSlot v).nextAddress.toNat = s.nextAddress.toNat + slotSize :=
  UInt32.toNat_ofNat_of_lt' room

omit laws in
theorem fitsNext {d : Word} (fits : s.Fits d) :
    (s.nextAddress + d).toNat = s.nextAddress.toNat + d.toNat := by
  rw [UInt32.toNat_add, Nat.mod_eq_of_lt fits]

omit laws in
theorem giveSlotHomes {regs : PhysicalReg → Prop}
    (homes : ∀ (v : Nat) x p, s.values[v]? = some x → x.home = some p → regs p) (v : VirtualReg) :
    ∀ (w : Nat) x p, (s.giveSlot v).values[w]? = some x → x.home = some p → regs p := by
  refine modifyHomes homes ?_ v.number
  exact fun _ _ home => .inl home

theorem giveSlotAlone (v : VirtualReg) (coupled : Coupled c s t) :
    ∃ t', Coupled c (s.giveSlot v) t' := by
  cases coupled with
  | mk blocks logs free homes =>
    refine ⟨_, .mk (s.giveSlot v) blocks (laws.tells (f := .slotGiven v 0) rfl rfl logs) free ?_⟩
    exact giveSlotHomes homes v

theorem giveSlotCoupled (v : VirtualReg)
    (room : s.nextAddress.toNat + slotSize + c.shift.toNat < 4294967296) (coupled : Coupled c s t) :
    Coupled c (s.giveSlot v) (t.giveSlot v) := by
  have fits : s.Fits c.shift := by unfold State.Fits; omega
  cases coupled with
  | mk blocks logs free homes =>
    have next : (s.giveSlot v).nextAddress + c.shift =
        UInt32.ofNat ((s.nextAddress + c.shift).toNat + slotSize) := by
      refine UInt32.toNat_inj.mp ?_
      rw [UInt32.toNat_add, giveSlotNext v (by omega), fitsNext fits, UInt32.toNat_ofNat',
        Nat.add_right_comm]
    have values : (s.giveSlot v).values.map (Value.shift c.shift) =
        (s.values.map (Value.shift c.shift)).modify
          v.number fun x => {x with slot := some (s.nextAddress + c.shift)} := by
      dsimp only [State.giveSlot]
      refine modifyMap ?_ s.values v.number
      exact fun x => rfl
    have step : Coupled c (s.giveSlot v) _ :=
      .mk (s.giveSlot v) blocks (laws.tells (f := .slotGiven v (s.nextAddress + c.shift)) rfl rfl logs)
        free (giveSlotHomes homes v)
    rw [next, values] at step
    exact step

theorem spillSlotAlone (v : VirtualReg) (coupled : Coupled c s t) :
    (∃ t', Coupled c ((Work.spillSlot v).leaves s) t') ∧
      (((Work.spillSlot v).leaves s).Fits c.shift → s.Fits c.shift) := by
  cases found : s.values[v.number]? with
  | none =>
    rw [leavesError (spillSlotLost found)]
    exact ⟨⟨t, coupled⟩, id⟩
  | some x =>
    cases slot : x.slot with
    | some w =>
      rw [leavesOk (spillSlotKnown found slot)]
      exact ⟨⟨t, coupled⟩, id⟩
    | none =>
      rcases Nat.lt_or_ge (s.nextAddress.toNat + slotSize) 4294967296 with room | large
      · rw [leavesOk (spillSlotFresh found slot room)]
        refine ⟨giveSlotAlone laws v coupled, fun fits => ?_⟩
        unfold State.Fits at fits ⊢
        rw [giveSlotNext v room] at fits
        omega
      · rw [leavesError (spillSlotOver found slot large)]
        exact ⟨⟨t, coupled⟩, id⟩

section
variable {v : VirtualReg} {x : Value} (coupled : Coupled c s t) (fits : s.Fits c.shift)
  (found : s.values[v.number]? = some x) (found' : t.values[v.number]? = some (x.shift c.shift))
include coupled fits found found'

omit laws in
theorem spillSlotEndsKnown {w : Word} (slot : x.slot = some w) :
    Ends c (Work.spillSlot v) (Work.spillSlot v >>= fun w => pure (w - c.shift)) s t := by
  have slot' : (x.shift c.shift).slot = some (w + c.shift) := by
    rw [Value.shift, slot, Option.map_some]
  refine .ok (spillSlotKnown found slot) ((workOk (spillSlotKnown found' slot')).trans ?_) fits coupled
  rw [UInt32.add_sub_cancel]
  rfl

theorem spillSlotEndsFresh (slot : x.slot = none) :
    Ends c (Work.spillSlot v) (Work.spillSlot v >>= fun w => pure (w - c.shift)) s t := by
  have slot' : (x.shift c.shift).slot = none := by rw [Value.shift, slot, Option.map_none]
  obtain ⟨next, difference⟩ : t.nextAddress.toNat = s.nextAddress.toNat + c.shift.toNat ∧
      t.nextAddress - c.shift = s.nextAddress := by
    cases coupled with
    | mk blocks logs free homes => exact ⟨fitsNext fits, UInt32.add_sub_cancel _ _⟩
  rcases Nat.lt_or_ge (t.nextAddress.toNat + slotSize) 4294967296 with room | large
  · have fresh := spillSlotFresh found' slot' room
    refine .ok (spillSlotFresh found slot (by omega)) ((workOk fresh).trans ?_) ?_
      (giveSlotCoupled laws v (by omega) coupled)
    · rw [difference]
      rfl
    · rw [State.Fits, giveSlotNext v (by omega)]
      omega
  -- Where the first runs out of addresses too, both stop alike.
  · have exhausted := spillSlotOver found' slot' large
    rcases Nat.lt_or_ge (s.nextAddress.toNat + slotSize) 4294967296 with room | large
    · refine .exhausted (workError exhausted) ?_
      rw [leavesOk (spillSlotFresh found slot room), State.Fits, giveSlotNext v room]
      omega
    · exact .error (spillSlotOver found slot large) (workError exhausted) (laws.fault _) fits coupled

end

/-- The only place where addresses matter. -/
theorem agreesSlot (v : VirtualReg) : Agrees c (fun _ => True) (Work.spillSlot v)
    (Work.spillSlot v >>= fun w => pure (w - c.shift)) := by
  refine ⟨fun s t coupled => ⟨fun _ _ _ => trivial, spillSlotAlone laws v coupled⟩,
    fun s t coupled fits => ?_⟩
  have values : t.values[v.number]? = s.values[v.number]?.map (Value.shift c.shift) ∧
      t.values.size = s.values.size := by
    cases coupled with
    | mk blocks logs free homes => exact ⟨Array.getElem?_map, Array.size_map⟩
  obtain ⟨same, size⟩ := values
  cases found : s.values[v.number]? with
  | none =>
    rw [found, Option.map_none] at same
    refine .error (spillSlotLost found) (workError ?_) (laws.fault _) fits coupled
    rw [spillSlotLost same, size]
  | some x =>
    rw [found, Option.map_some] at same
    cases slot : x.slot with
    | some w => exact spillSlotEndsKnown coupled fits found same slot
    | none => exact spillSlotEndsFresh laws coupled fits found same slot

theorem agreesSpillSlot (v : VirtualReg) {f g : Word → Work α}
    (next : ∀ w, Agrees c post (f w) (g (w + c.shift))) :
    Agrees c post (Work.spillSlot v >>= f) (Work.spillSlot v >>= g) := by
  have lowered := agreesBind (agreesSlot laws v) fun w _ => next w
  rw [bind_assoc] at lowered
  simpa only [pure_bind, UInt32.sub_add_cancel] using lowered

theorem agreesVictims (ps : List PhysicalReg) : Agrees c (fun ws => ∀ w ∈ ws, w.reg ∈ ps)
    (ps.mapM Work.victimIn) (ps.mapM Work.victimIn) := by
  induction ps with
  | nil => exact agreesPure (List.forall_mem_nil _)
  | cons p ps ih =>
    have here : Agrees c (fun w => w.reg = p) (Work.victimIn p) (Work.victimIn p) := by
      refine agreesBind (agreesOccupant laws p) fun o _ => ?_
      cases o with
      | some o => exact agreesValue laws o.value fun x _ => agreesPure rfl
      | none => exact agreesThrow (laws.fault _)
    rw [List.mapM_cons]
    refine agreesBind here fun w same => agreesBind ih fun ws others => agreesPure ?_
    rw [List.forall_mem_cons]
    exact ⟨by rw [same]; exact List.mem_cons_self, fun x inside => List.mem_cons_of_mem _ (others x inside)⟩

theorem agreesAssign {h h' : Handle} {slot : Slot} (free : c.slots h h' slot) (p : PhysicalReg) :
    Agrees c (fun _ => True) (Work.assignSlot h slot p) (Work.assignSlot h' slot p) := by
  refine agreesModify (fun _ => rfl) fun s t coupled => ?_
  cases coupled with
  | mk blocks logs spare homes =>
    exact .mk {s with block := s.block.modify h (Instr.setPhysical · slot p)}
      (laws.assign p free blocks) logs spare homes

omit laws in
theorem coupledAudit (coupled : Coupled c s t) (plan : Plan) : t.audit plan = s.audit plan := by
  cases coupled with
  | @mk b log blocks logs free homes =>
    have occupant : ∀ e, State.auditOccupant {s with
        block := b
        values := s.values.map (Value.shift c.shift)
        nextAddress := s.nextAddress + c.shift
        log} e = s.auditOccupant e := by
      intro e
      simp only [State.auditOccupant, Array.getElem?_map, Array.size_map]
      cases s.values[e.2.value.number]? with
      | none => rfl
      | some x => rfl
    unfold State.audit
    rw [funext occupant]
    rfl

theorem coupledAuditAll (coupled : Coupled c s t) (plan : Plan) :
    t.auditAll plan = s.auditAll plan := by
  have audit := coupledAudit coupled plan
  cases coupled with
  | mk blocks logs free homes =>
    unfold State.auditAll
    rw [audit, laws.valid blocks, Array.toList_map, List.zipIdx_map, List.forM_eq_forM, List.forM_map]
    rfl

theorem agreesAudits (plan : Plan) (verbose : Bool) : Agrees c (fun _ => True) (do
    if verbose then Work.snapshot
    Work.ofExcept ((← get).audit plan)) (do
    if verbose then Work.snapshot
    Work.ofExcept ((← get).audit plan)) := by
  have audits : Agrees c (fun _ => True) (do Work.ofExcept ((← get).audit plan))
      (do Work.ofExcept ((← get).audit plan)) := by
    refine agreesRead fun s t coupled => ?_
    rw [coupledAudit coupled]
    exact agreesOfExcept laws _
  cases verbose with
  | false => exact audits
  | true => exact agreesBind (agreesRead fun _ _ _ => agreesRecord laws rfl rfl) fun _ _ => audits

variable (paired : c.sites σ σ')
include paired

theorem agreesAddressRegister (v : VirtualReg) : Agrees c (fun p => c.plan.address = some p)
    (Work.addressRegister c.plan σ v) (Work.addressRegister c.plan σ' v) := by
  unfold Work.addressRegister
  cases c.plan.address with
  | some p => exact agreesPure rfl
  | none => exact agreesThrow (laws.spill v paired)

theorem agreesInsert {i j : Instr} (code : c.Code σ.line σ'.line i j) :
    Agrees c (fun _ => True) (Work.insert σ i) (Work.insert σ' j) := by
  refine agreesBind (agreesRecord laws rfl rfl) fun _ _ => agreesAt fun s t coupled => ?_
  let noted (b : Block) (site : Site) : Work Unit := do
    Work.record (.inserted b.fresh site.handle)
    Work.count fun t => {t with inserted := t.inserted + 1}
  have blocks : c.blocks s.block t.block := by
    cases coupled with
    | mk blocks logs free homes => exact blocks
  generalize made : s.block.insertBefore (some σ.handle) i = ran
  generalize made' : t.block.insertBefore (some σ'.handle) j = ran'
  have both := laws.insert paired code blocks
  rw [made, made'] at both
  cases both with
  | @ok b d related =>
    refine ⟨modify (fun s => {s with block := b}) >>= fun _ => noted s.block σ,
      modify (fun s => {s with block := d}) >>= fun _ => noted t.block σ', ?_, ?_, ?_⟩
    · rw [workGet, made]
      rfl
    · rw [workGet, made']
      rfl
    · exact agreesBind (agreesSetBlock related) fun _ _ =>
        agreesBind (agreesRecord laws rfl rfl) fun _ _ => agreesCount _
  | error f =>
    refine ⟨throw (.fault f), throw (.fault f), ?_, ?_, agreesThrow (laws.fault f)⟩
    · rw [workGet, made]
      rfl
    · rw [workGet, made']
      rfl

theorem agreesRestore {p : PhysicalReg} (v : VirtualReg) (usable : c.regs p) :
    Agrees c (fun _ => True) (Work.restore c.plan σ v p) (Work.restore c.plan σ' v p) := by
  refine agreesValue laws v fun x _ => ?_
  rw [Value.shift]
  cases x.constant with
  | some w =>
    exact agreesBind (agreesRecord laws rfl rfl) fun _ _ =>
      agreesBind (agreesInsert laws paired (.remade w usable)) fun _ _ =>
        agreesBind (agreesStatus v _) fun _ _ => agreesCount _
  | none =>
    cases x.status with
    | unknown => exact agreesBind (agreesRecord laws rfl rfl) fun _ _ => agreesStatus v _
    | dirty => exact agreesThrow (laws.fault _)
    | clean =>
      refine agreesBind (agreesAddressRegister laws paired v) fun a address => agreesSpillSlot laws v
        fun w => agreesBind (agreesRecord laws rfl rfl) fun _ _ => ?_
      exact agreesBind (agreesInsert laws paired (.address w address)) fun _ _ =>
        agreesBind (agreesInsert laws paired (.load a p)) fun _ _ =>
          agreesBind (agreesStatus v _) fun _ _ => agreesCount _

end

section
variable {c : Coupling} (laws : c.Chooses) {s t : State} {σ σ' : Site} {h h' : Handle} {i j : Instr}
include laws

theorem agreesNote (e e' : Event) : Agrees c (fun _ => True) (Work.record e) (Work.record e') := by
  refine agreesModify (fun _ => rfl) fun s t coupled => ?_
  cases coupled with
  | mk blocks logs free homes => exact .mk {s with log := e :: s.log} blocks (laws.choice logs) free homes

theorem agreesChoose (paired : c.sites σ σ') : Agrees c (fun w => c.regs w.reg)
    (Work.chooseVictim c.plan σ) (Work.chooseVictim c.plan σ') := by
  refine agreesRead fun s t coupled => ?_
  have same : t.contenders c.plan = s.contenders c.plan := by cases coupled; rfl
  rw [same]
  refine agreesBind (agreesVictims laws.toLawful _) fun ws listed => ?_
  cases best : Victim.best ws with
  | none => exact agreesThrow (laws.crowded paired)
  | some w =>
    exact agreesBind (agreesNote laws _ _) fun _ _ =>
      agreesPure (laws.regs _ (memContenders (listed w (bestMem best))).1)

theorem agreesEvict (paired : c.sites σ σ') (v : VirtualReg) (p : PhysicalReg) :
    Agrees c (fun _ => True) (Work.evict c.plan σ v p) (Work.evict c.plan σ' v p) := by
  have lawful := laws.toLawful
  refine agreesBind (agreesCount _) fun _ _ => agreesValue lawful v fun x _ => ?_
  have cost : (x.shift c.shift).cost = x.cost := rfl
  rw [cost]
  cases x.cost with
  | constant =>
    exact agreesBind (agreesNote laws _ _) fun _ _ => agreesBind (agreesStatus v _) fun _ _ =>
      agreesVacate lawful p
  | clean => exact agreesBind (agreesNote laws _ _) fun _ _ => agreesVacate lawful p
  | dirty =>
    refine agreesBind (agreesAddressRegister lawful paired v) fun a address => agreesSpillSlot lawful v
      fun w => agreesBind (agreesNote laws _ _) fun _ _ => ?_
    exact agreesBind (agreesInsert lawful paired (.address w address)) fun _ _ =>
      agreesBind (agreesInsert lawful paired (.store p a)) fun _ _ =>
        agreesBind (agreesStatus v _) fun _ _ => agreesBind (agreesCount _) fun _ _ =>
          agreesVacate lawful p

theorem agreesTake (paired : c.sites σ σ') : Agrees c c.regs (Work.takeRegister c.plan σ)
    (Work.takeRegister c.plan σ') := by
  refine agreesAt fun s t coupled => ?_
  have frees : t.free = s.free ∧ t.pinned = s.pinned ∧ ∀ p ∈ s.free, c.regs p := by
    cases coupled with
    | mk blocks logs free homes => exact ⟨rfl, rfl, free⟩
  obtain ⟨spare, pinned, below⟩ := frees
  cases free : s.free with
  | nil =>
    let emptied (site : Site) : Work PhysicalReg := do
      let w ← Work.chooseVictim c.plan site
      Work.evict c.plan site w.value w.reg
      pure w.reg
    refine ⟨emptied σ, emptied σ', ?_, ?_, ?_⟩
    · rw [Work.takeRegister, workGet, free]
    · rw [Work.takeRegister, workGet, spare, free]
    · exact agreesBind (agreesChoose laws paired) fun w usable =>
        agreesBind (agreesEvict laws paired w.value w.reg) fun _ _ => agreesPure usable
  | cons p ps =>
    let handed (held : Bool) : Work PhysicalReg := do
      modify fun s => {s with free := ps}
      if held then Work.fail .pinnedRegisterFree
      pure p
    have same : ∀ (site : Site) (s : State), s.free = p :: ps →
        Work.takeRegister c.plan site s = handed (s.pinned.contains p) s := by
      intro site s free
      rw [Work.takeRegister, workGet, free]
      rfl
    obtain ⟨usable, rest⟩ := List.forall_mem_cons.mp (free ▸ below)
    refine ⟨handed (s.pinned.contains p), handed (s.pinned.contains p), same σ s free, ?_, ?_⟩
    · rw [same σ' t (spare.trans free), pinned]
    · refine agreesBind (agreesFree rest) fun _ _ => ?_
      split
      · exact agreesFail laws.toLawful _ _ _
      · exact agreesPure usable

theorem agreesPlaceInRegister (paired : c.sites σ σ') (v : Option VirtualReg) (u : NextUse) :
    Agrees c c.regs (Work.placeInRegister c.plan σ v u) (Work.placeInRegister c.plan σ' v u) :=
  agreesBind (agreesTake laws paired) fun _ usable => agreesBind (agreesRecord laws.toLawful rfl rfl)
    fun _ _ => agreesBind (agreesOfExcept laws.toLawful _) fun v _ =>
      agreesBind (agreesPlace laws.toLawful v u usable) fun _ _ => agreesPure usable

theorem agreesFetch (paired : c.sites σ σ') (v : VirtualReg) (u : NextUse) :
    Agrees c (fun _ => True) (Work.fetch c.plan σ v u) (Work.fetch c.plan σ' v u) := by
  refine agreesValue laws.toLawful v fun x _ => ?_
  rw [Value.shift]
  cases x.home with
  | some p => exact agreesPure trivial
  | none =>
    exact agreesBind (agreesPlaceInRegister laws paired v u) fun p usable =>
      agreesBind (agreesRestore laws.toLawful paired v usable) fun _ _ => agreesPure trivial

theorem agreesReadSlot {slot : Slot} (here : c.At h h' i j) (read : slot ∈ i.opcode.reads) :
    Agrees c (fun _ => True) (Work.readSlot c.plan ⟨h, i.line⟩ i slot)
      (Work.readSlot c.plan ⟨h', j.line⟩ j slot) := by
  have used : slot ∈ i.opcode.slots := List.mem_append_left _ read
  dsimp only [Work.readSlot]
  rw [here.virtual slot used, here.nextUse slot used]
  exact agreesBind (agreesOfExcept laws.toLawful _) fun v _ =>
    agreesBind (agreesFetch laws here.site v _) fun p _ =>
      agreesBind (agreesAssign laws.toLawful (here.slots slot used) p) fun _ _ =>
        agreesBind (agreesPins (·.insert p)) fun _ _ => agreesUpdateRegister p _

theorem agreesWriteSlot {slot : Slot} (here : c.At h h' i j) (written : i.opcode.writes = some slot) :
    Agrees c (fun _ => True) (Work.writeSlot c.plan ⟨h, i.line⟩ i slot)
      (Work.writeSlot c.plan ⟨h', j.line⟩ j slot) := by
  have used : slot ∈ i.opcode.slots := Opcode.memSlots.mpr (.inr written)
  have constant : (if j.opcode = .loadI then some j.constant else none) =
      if i.opcode = .loadI then some i.constant else none := by
    rw [here.opcode]
    split
    · rename_i loads
      rw [here.constant (by rw [loads]; rfl)]
    · rfl
  dsimp only [Work.writeSlot]
  rw [here.virtual slot used, here.nextUse slot used, constant]
  refine agreesBind (agreesPlaceInRegister laws here.site _ _) fun p _ =>
    agreesBind (agreesAssign laws.toLawful (here.slots slot used) p) fun _ _ =>
      agreesBind (agreesOfExcept laws.toLawful _) fun v _ => ?_
  refine agreesBind (agreesUpdateValue v (fun _ => rfl) fun _ _ home => .inl home) fun _ _ => ?_
  split
  · exact agreesRelease laws.toLawful v
  · exact agreesPure trivial

theorem agreesInstr (paired : c.handles h h') :
    Agrees c (fun _ => True) (Work.allocateInstr c.plan h) (Work.allocateInstr c.plan h') := by
  refine agreesRead fun s t coupled => ?_
  have blocks : c.blocks s.block t.block := by
    cases coupled with
    | mk blocks logs free homes => exact blocks
  have both := laws.get paired blocks
  generalize s.block.get (some h) = got at both ⊢
  generalize t.block.get (some h') = got' at both ⊢
  cases both with
  | error f => exact agreesFail laws.toLawful f _ _
  | @ok i j here =>
    have unpins : Agrees c (fun _ => True) Work.unpinAll Work.unpinAll := agreesPins fun _ => .empty
    refine agreesOk (agreesBind (agreesRecord laws.toLawful rfl rfl) fun _ _ => ?_)
    rw [here.opcode, Instr.sameReads here.toSameRanges]
    refine agreesBind unpins fun _ _ => agreesBind (agreesForM _ fun slot read =>
      agreesReadSlot laws here read) fun _ _ => ?_
    refine agreesBind (agreesForM _ fun v _ => agreesRelease laws.toLawful v) fun _ _ =>
      agreesBind unpins fun _ _ => ?_
    exact agreesBind (agreesForM _ fun slot written => agreesWriteSlot laws here
      (Option.mem_toList.mp written)) fun _ _ => agreesAudits laws.toLawful _ _

theorem agreesEach {pairs : List (Handle × Handle)} (paired : ∀ e ∈ pairs, c.handles e.1 e.2) :
    Agrees c (fun _ => True) (Work.allocateEach c.plan (pairs.map Prod.fst))
      (Work.allocateEach c.plan (pairs.map Prod.snd)) := by
  refine agreesBind (agreesPairs pairs fun e inside => agreesInstr laws (paired e inside)) fun _ _ =>
    agreesRead fun s t coupled => ?_
  rw [coupledAuditAll laws.toLawful coupled]
  exact agreesOfExcept laws.toLawful _

theorem agreesSame {hs : List Handle} (same : ∀ h ∈ hs, c.handles h h) :
    Agrees c (fun _ => True) (Work.allocateEach c.plan hs) (Work.allocateEach c.plan hs) := by
  have agrees := @agreesEach c laws (hs.map fun h => (h, h)) fun e inside => by
    obtain ⟨h, listed, rfl⟩ := List.mem_map.mp inside
    exact same h listed
  simpa [Function.comp_def] using agrees

end
section
variable {c : Coupling} {line line' : Nat} {i j : Instr}

theorem codeInserted (code : c.Code line line' i j) :
    i.inserted = true ∧ i.line = line ∧ j.inserted = true ∧ j.line = line' := by
  cases code <;> exact ⟨rfl, rfl, rfl, rfl⟩

theorem codeLevel (level : c.shift = 0) (code : c.Code line line' i j) : j = {i with line := line'} := by
  cases code with
  | address w address => simp [level, Instr.insertedLoadI]
  | remade w usable => rfl
  | store p a => rfl
  | load a p => rfl

end

theorem agreesLevel {c : Coupling} {α : Type} {post : α → Prop} {x y : Work α} {s : State} {d : Block}
    (level : c.shift = 0) (all : ∀ p, c.regs p) (agrees : Agrees c post x y)
    (blocks : c.blocks s.block d) (log : List Event) (logs : c.logs s.log log) :
    (∃ a s' d' log', x s = .ok a s' ∧ y {s with block := d, log} = .ok a {s' with block := d', log := log'} ∧
      c.blocks s'.block d' ∧ c.logs s'.log log') ∨
    ∃ e f s' d' log', x s = .error e s' ∧
      y {s with block := d, log} = .error f {s' with block := d', log := log'} ∧ c.stops e f ∧
      c.blocks s'.block d' ∧ c.logs s'.log log' := by
  have still : Value.shift 0 = id := funext fun x => by
    rcases x with ⟨home, _ | w, constant, status⟩ <;> simp [Value.shift]
  have level' : ∀ {s t}, Coupled c s t → ∃ d log, t = {s with block := d, log} ∧ c.blocks s.block d ∧
      c.logs s.log log := by
    intro s t coupled
    cases coupled with
    | @mk d log blocks logs free homes =>
      refine ⟨d, log, ?_, blocks, logs⟩
      rw [level, still, Array.map_id, UInt32.add_zero]
  have coupled : Coupled c s {s with block := d, log} := by
    have start : Coupled c s _ := .mk s blocks logs (fun p _ => all p) fun _ _ p _ _ => all p
    rw [level, still, Array.map_id, UInt32.add_zero] at start
    exact start
  have fits : ∀ t : State, t.Fits c.shift := by
    intro t
    rw [State.Fits, level]
    exact t.nextAddress.toNat_lt
  cases agrees.ends _ _ coupled (fits s) with
  | ok ran ran' _ ended =>
    obtain ⟨d', log', rfl, blocks', logs'⟩ := level' ended
    exact .inl ⟨_, _, d', log', ran, ran', blocks', logs'⟩
  | error ran ran' stops _ ended =>
    obtain ⟨d', log', rfl, blocks', logs'⟩ := level' ended
    exact .inr ⟨_, _, _, d', log', ran, ran', stops, blocks', logs'⟩
  | exhausted _ large => exact absurd (fits _) large

end Allocation
end Straightline
