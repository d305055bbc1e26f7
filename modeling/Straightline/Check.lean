import Straightline.Block
import Std.Data.TreeMap

/-! Checking an allocated block. The block is run on symbols: every physical register and every spill
address holds the value of some virtual register, a known constant or nothing known. A given
instruction has to find in its registers the values that its virtual registers name; inserted code
has to move values through spill slots only, at addresses that are known. A virtual register that no
given instruction writes has no value of its own, so its reads accept whatever the register holds. -/
namespace Straightline.Check

inductive Content where
  | unknown
  | value (v : Option VirtualReg)
  | constant (c : Word)
  deriving DecidableEq, Repr

inductive Error where
  | missing (handle : Handle) (slot : Slot)
  | outOfRange (handle : Handle) (slot : Slot) (reg : PhysicalReg)
  | addressInGiven (handle : Handle) (slot : Slot)
  | incorrect (handle : Handle) (slot : Slot) (reg : PhysicalReg) (expected : Option VirtualReg)
      (actual : Content)
  | badAddress (handle : Handle) (reg : PhysicalReg) (actual : Content)
  | unexpectedOperation (handle : Handle) (opcode : Opcode)
  deriving DecidableEq, Repr

structure Frame where
  usable : Nat
  address : Option PhysicalReg
  defined : Std.TreeSet (Option VirtualReg)
  constants : Std.TreeMap (Option VirtualReg) Word

structure State where
  registers : Vector Content 64 := .replicate 64 .unknown
  memory : Std.TreeMap Word Content := ∅

namespace State

def content (s : State) (p : PhysicalReg) : Content := s.registers.get p.index

def write (s : State) (p : PhysicalReg) (x : Content) : State :=
  {s with registers := s.registers.set p.number x p.numberLt}

def load (s : State) (a : Word) : Content := s.memory.getD a .unknown

def store (s : State) (a : Word) (x : Content) : State :=
  {s with memory := s.memory.insert a x}

end State

namespace Frame

def ofBlock (b : Block) (usable : Nat) (address : Option PhysicalReg) : Frame :=
  let writes := b.given.filterMap fun i => i.writtenOperand.map fun op => (op.virtual, i)
  { usable
    address
    defined := .ofList (writes.map Prod.fst)
    constants := .ofList ((writes.filter fun w => w.2.opcode = .loadI).map fun w =>
      (w.1, w.2.constant)) }

def numRegisters (f : Frame) : Nat := f.usable + if f.address.isSome then 1 else 0

/-- The registers have to be countable in a machine word, and there has to be room for them at eight
bytes each. -/
def reserveRegisters (f : Frame) : Except Fault Unit :=
  if f.numRegisters < 18446744073709551616 then reserve f.numRegisters 8 else .error .countOverflow

def holds (f : Frame) (x : Content) (v : Option VirtualReg) : Bool :=
  match x with
  | .value w => w = v
  | .constant c => f.constants[v]? = some c
  | .unknown => false

def register (f : Frame) (limit : Nat) (h : Handle) (i : Instr) (slot : Slot) :
    Except Error PhysicalReg :=
  match (i.operand slot).physical with
  | none => .error (.missing h slot)
  | some p =>
    if !i.inserted && f.address = some p then .error (.addressInGiven h slot)
    else if p.number < limit then .ok p
    else .error (.outOfRange h slot p)

def spillAddress (f : Frame) (s : State) (h : Handle) (i : Instr) (slot : Slot) :
    Except Error Word := do
  let p ← f.register f.numRegisters h i slot
  match s.content p with
  | .constant a =>
    if f.address = some p then .ok a else .error (.badAddress h p (.constant a))
  | x => .error (.badAddress h p x)

def checkRead (f : Frame) (s : State) (h : Handle) (i : Instr) (slot : Slot) :
    Except Error Unit := do
  let p ← f.register f.usable h i slot
  let v := (i.operand slot).virtual
  if f.defined.contains v && !f.holds (s.content p) v then
    .error (.incorrect h slot p v (s.content p))

def runGiven (f : Frame) (s : State) (h : Handle) (i : Instr) : Except Error State := do
  i.opcode.reads.forM (f.checkRead s h i)
  match i.opcode.writes with
  | some slot =>
    let p ← f.register f.usable h i slot
    .ok (s.write p (.value (i.operand slot).virtual))
  | none => .ok s

def runInserted (f : Frame) (s : State) (h : Handle) (i : Instr) : Except Error State := do
  match i.opcode with
  | .loadI =>
    let target ← f.register f.numRegisters h i .third
    .ok (s.write target (.constant i.constant))
  | .load =>
    let a ← f.spillAddress s h i .first
    let target ← f.register f.numRegisters h i .third
    .ok (s.write target (s.load a))
  | .store =>
    let source ← f.register f.numRegisters h i .first
    let a ← f.spillAddress s h i .third
    .ok (s.store a (s.content source))
  | op => .error (.unexpectedOperation h op)

def run (f : Frame) (s : State) (h : Handle) (i : Instr) : Except Error State :=
  if i.inserted then f.runInserted s h i else f.runGiven s h i

/-- The errors of a list of instructions. One that is in error leaves the state as it was. -/
def errors (f : Frame) (s : State) : List (Handle × Instr) → List Error
  | [] => []
  | (h, i) :: rest =>
    match f.run s h i with
    | .ok s => f.errors s rest
    | .error e => e :: f.errors s rest

end Frame
end Check

def Block.check (b : Block) (usable : Nat) (address : Option PhysicalReg) :
    Except Fault (List Check.Error) := do
  let f := Check.Frame.ofBlock b usable address
  f.reserveRegisters
  .ok (f.errors {} b.entries)

end Straightline
