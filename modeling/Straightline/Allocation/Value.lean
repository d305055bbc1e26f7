import Straightline.Allocation.Basic

/-! What an allocation knows of a value and of a register, and what it takes to evict a value. -/
namespace Straightline.Allocation

/-- Whether a value is kept anywhere but in its register: it was not placed in one yet, it is also in
its spill slot or known to be a constant, or it is nowhere else. -/
inductive Status where
  | unknown
  | clean
  | dirty
  deriving DecidableEq, Repr

structure Value where
  home : Option PhysicalReg := none
  slot : Option Word := none
  constant : Option Word := none
  status : Status := .unknown
  deriving DecidableEq, Repr

structure Occupant where
  value : VirtualReg
  nextUse : NextUse
  deriving DecidableEq, Repr

inductive Cost where
  | dirty
  | clean
  | constant
  deriving DecidableEq, Repr

def Cost.rank : Cost → Nat
  | dirty => 0
  | clean => 1
  | constant => 2

def Value.cost (v : Value) : Cost :=
  if v.constant.isSome then .constant
  else if v.status = .clean then .clean
  else .dirty

structure Victim where
  reg : PhysicalReg
  value : VirtualReg
  cost : Cost
  nextUse : NextUse
  deriving DecidableEq, Repr

namespace Victim

def better (a b : Victim) : Bool :=
  b.cost.rank < a.cost.rank || (a.cost = b.cost && b.nextUse.rank < a.nextUse.rank)

def best : List Victim → Option Victim
  | [] => none
  | v :: vs => some (vs.foldl (fun best v => if v.better best then v else best) v)

end Victim
end Straightline.Allocation
