import Straightline.Listing
import Straightline.RegisterSet

/-! Dumps: values written out with the names of their parts, as traces show them, and the messages of
faults. -/
namespace Straightline

def Naming.dumpName : Naming → String
  | source => "SReg"
  | virtual => "VReg"
  | physical => "PReg"

def dumpReg {n : Naming} (r : Option (Reg n)) : String :=
  let inside := match n, r with
    | _, some r => toString r.number
    | .source, none => toString Naming.source.absentNumber
    | _, none => "invalid"
  s!"{n.dumpName}({inside})"

def Reg.dump {n : Naming} (r : Reg n) : String := dumpReg (some r)

def dumpHandle (h : Option Handle) : String := s!"Inst({h.getD 4294967295})"

def dumpList (items : List String) : String := "[" ++ String.intercalate ", " items ++ "]"

def dumpOption (x : Option String) : String :=
  match x with
  | some text => s!"Some({text})"
  | none => "None"

def dumpRecord (name : String) (fields : List (String × String)) : String :=
  name ++ " \x7b " ++ String.intercalate ", " (fields.map fun f => f.1 ++ ": " ++ f.2) ++ " \x7d"

def slotAddress (slot : Option Word) : Word := slot.getD 4294967295

def slotText (slot : Option Word) : String := s!"spill@{slotAddress slot}"

def dumpSlot (slot : Option Word) : String :=
  dumpRecord "SpillSlot" [("addr", toString (slotAddress slot))]

def Opcode.dump : Opcode → String
  | loadI => "LoadI"
  | load => "Load"
  | store => "Store"
  | add => "Add"
  | sub => "Sub"
  | mult => "Mult"
  | lshift => "LShift"
  | rshift => "RShift"
  | output => "Output"
  | nop => "Nop"

def Operand.dump (op : Operand) : String :=
  dumpRecord "Operand" [("sreg", dumpReg op.source), ("vreg", dumpReg op.virtual),
    ("preg", dumpReg op.physical), ("next_use", op.nextUse.text)]

def Instr.dumpOperands (i : Instr) : String :=
  dumpList [i.first.dump, i.second.dump, i.third.dump]

def Instr.dump (i : Instr) : String :=
  dumpRecord "InstData" [("line", toString i.line), ("opcode", i.opcode.dump),
    ("constant", toString i.constant), ("operands", i.dumpOperands),
    ("synthetic", toString i.inserted)]

def RegisterSet.dump (s : RegisterSet) : String :=
  "\x7b " ++ String.join (s.toList.map fun p => p.label ++ " ") ++ "\x7d"

def Fault.message : Fault → String
  | .absent => "assertion failed: self.is_valid()"
  | .outOfBounds size index => s!"index out of bounds: the len is {size} but the index is {index}"
  | .numberTooLarge .physical => "assertion failed: hw_enc <= Self::MAX"
  | .numberTooLarge _ => "assertion failed: vreg <= Self::MAX"
  | .positionTooLarge => "assertion failed: pos < u32::MAX as usize"
  | .notArithmetic => "assertion failed: opcode.is_arith()"
  | .insertedBeforeRenaming => "assertion failed: !data.synthetic"
  | .looseLink _ => "assertion failed: prev.is_invalid() || self.nodes[prev].next == at"
  | .looseFirst first h => unequal (dumpHandle first) (dumpHandle h)
  | .cycle h => s!"Cycle detected in block at {dumpHandle h}"
  | .beforeMismatch h found expected =>
    s!"Invalid block: {dumpHandle h} prev is {dumpHandle found}, expected {dumpHandle expected}"
  | .lastMismatch found expected =>
    s!"Invalid block: chain ends at {dumpHandle found}, tail is {dumpHandle expected}"
  | .sizeMismatch linked size => s!"Invalid block: {linked} linked nodes but len is {size}"
  | .tooManyRegisters => "at most 64 registers"
  | .noRoom => "capacity overflow"
  | .countOverflow | .spillAddressOverflow => "attempt to add with overflow"
  | .countUnderflow => "attempt to subtract with overflow"
  | .alreadyPlaced => "assertion failed: self.vreg_preg[vreg.vreg()].is_invalid()"
  | .registerOccupied => "assertion failed: self.preg_vreg[preg.hw_enc()].is_invalid()"
  | .pinnedRegisterFree => "assertion failed: !self.protected.contains(preg)"
  | .emptyCandidate => "assertion failed: vreg.is_valid()"
  | .valueNotSaved => unequal "Dirty" "Clean"
  | .homeMismatch p v home =>
    s!"{p.label} holds {v.label} but {v.label} maps to {dumpReg home}"
  | .badFreeList free =>
    let listed := dumpList (free.reverse.map Reg.dump)
    s!"Invalid free list: {listed}"
  | .registerCount occupied free usable =>
    s!"{occupied} occupied + {free} free registers, expected {usable}"
  | .valueInAddressRegister v => s!"v{v} is in the spill address register"
  | .occupantMismatch v p held =>
    s!"v{v} maps to {p.label} but {p.label} holds {dumpReg held}"
where
  unequal (left right : String) : String :=
    s!"assertion `left == right` failed\n  left: {left}\n right: {right}"

end Straightline
