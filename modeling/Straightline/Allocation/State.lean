import Straightline.Allocation.Event
import Straightline.RegisterSet

/-! The state of an allocation. Every virtual register has a record of where its value is; every
usable register has a record of whose value it carries. The two agree, and the free list holds the
registers that carry nothing. -/
namespace Straightline.Allocation

structure State where
  block : Block
  values : Array Value
  registers : Array (Option Occupant)
  free : List PhysicalReg
  pinned : RegisterSet
  nextAddress : Word
  slots : Nat
  stats : Stats
  log : List Event
  deriving DecidableEq, Repr

def State.initial (block : Block) (plan : Plan) (numVirtual : Nat) : State where
  block
  values := Array.replicate numVirtual {}
  registers := Array.replicate plan.usable none
  free := Reg.below plan.usable
  pinned := .empty
  nextAddress := plan.options.base
  slots := 0
  stats := {}
  log := []

/-- Work on the state of an allocation. A stop keeps the state that was reached. -/
abbrev Work := EStateM Stop State

namespace Work

def fail {α : Type} (f : Fault) : Work α := throw (.fault f)

def ofExcept {α : Type} : Except Fault α → Work α
  | .ok a => pure a
  | .error f => fail f

def record (e : Event) : Work Unit := modify fun s => {s with log := e :: s.log}

def count (f : Stats → Stats) : Work Unit := modify fun s => {s with stats := f s.stats}

def value (v : VirtualReg) : Work Value := do
  let s ← get
  match s.values[v.number]? with
  | some x => pure x
  | none => fail (.outOfBounds s.values.size v.number)

def updateValue (v : VirtualReg) (f : Value → Value) : Work Unit :=
  modify fun s => {s with values := s.values.modify v.number f}

def occupant (p : PhysicalReg) : Work (Option Occupant) := do
  let s ← get
  match s.registers[p.number]? with
  | some x => pure x
  | none => fail (.outOfBounds s.registers.size p.number)

def updateRegister (p : PhysicalReg) (f : Option Occupant → Option Occupant) : Work Unit :=
  modify fun s => {s with registers := s.registers.modify p.number f}

def place (v : VirtualReg) (p : PhysicalReg) (nextUse : NextUse) : Work Unit := do
  if (← value v).home.isSome then fail .alreadyPlaced
  if (← occupant p).isSome then fail .registerOccupied
  updateValue v fun x => {x with home := some p}
  updateRegister p fun _ => some ⟨v, nextUse⟩

def vacate (p : PhysicalReg) : Work Unit := do
  let o ← ofExcept (present (← occupant p))
  updateValue o.value fun x => {x with home := none}
  updateRegister p fun _ => none

def release (v : VirtualReg) : Work Unit := do
  match (← value v).home with
  | some p =>
    record (.freed v p)
    vacate p
    modify fun s => {s with free := p :: s.free}
  | none => pure ()

end Work
end Straightline.Allocation
