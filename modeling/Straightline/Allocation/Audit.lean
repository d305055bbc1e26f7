import Straightline.Allocation.State

/-! Checks on the state of an allocation, made while it runs. Every occupied register is the home of
its value, the free list holds exactly the other usable registers, and at the end every value with a
home is found there. -/
namespace Straightline.Allocation.State

def occupied (s : State) : List (Nat × Occupant) :=
  s.registers.toList.zipIdx.filterMap fun (o, i) => o.map (i, ·)

def holdings (s : State) : List Holding :=
  s.occupied.filterMap fun (i, o) => do
    let p ← Reg.ofNat? .physical i
    let x ← s.values[o.value.number]?
    some ⟨p, o.value, o.nextUse, x.status, x.slot⟩

def auditOccupant (s : State) (e : Nat × Occupant) : Except Fault Unit := do
  let p ← Reg.ofNat .physical e.1
  match s.values[e.2.value.number]? with
  | some x => if x.home = some p then .ok () else .error (.homeMismatch p e.2.value x.home)
  | none => .error (.outOfBounds s.values.size e.2.value.number)

def freeSet (s : State) : Except Fault RegisterSet :=
  s.free.foldlM (fun seen p =>
    match s.registers[p.number]? with
    | some none => if seen.contains p then .error (.badFreeList s.free) else .ok (seen.insert p)
    | some (some _) => .error (.badFreeList s.free)
    | none => .error (.outOfBounds s.registers.size p.number)) .empty

def audit (s : State) (plan : Plan) : Except Fault Unit := do
  s.occupied.forM s.auditOccupant
  let free ← s.freeSet
  if s.occupied.length + free.size ≠ plan.usable then
    .error (.registerCount s.occupied.length free.size plan.usable)

def auditValue (s : State) (plan : Plan) (x : Value × Nat) : Except Fault Unit :=
  match x.1.home with
  | some p =>
    if plan.address = some p then .error (.valueInAddressRegister x.2)
    else match s.registers[p.number]? with
      | some o =>
        let held := o.map Occupant.value
        if held.map Reg.number = some x.2 then .ok () else .error (.occupantMismatch x.2 p held)
      | none => .error (.outOfBounds s.registers.size p.number)
  | none => .ok ()

def auditAll (s : State) (plan : Plan) : Except Fault Unit := do
  s.audit plan
  s.values.toList.zipIdx.forM (s.auditValue plan)
  s.block.validate

end Straightline.Allocation.State
