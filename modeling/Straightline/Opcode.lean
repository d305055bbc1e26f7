/-! The ten operations of a block, with the operand slots that each reads and writes. An instruction
has three slots whatever its operation; the slots that the operation names are the ones that count. -/
namespace Straightline

inductive Slot where
  | first
  | second
  | third
  deriving DecidableEq, Repr

namespace Slot

def index : Slot → Nat
  | first => 0
  | second => 1
  | third => 2

def ofNat? : Nat → Option Slot
  | 0 => some first
  | 1 => some second
  | 2 => some third
  | _ => none

end Slot

inductive Opcode where
  | loadI
  | load
  | store
  | add
  | sub
  | mult
  | lshift
  | rshift
  | output
  | nop
  deriving DecidableEq, Repr

namespace Opcode

def all : List Opcode := [loadI, load, store, add, sub, mult, lshift, rshift, output, nop]

def mnemonic : Opcode → String
  | loadI => "loadI"
  | load => "load"
  | store => "store"
  | add => "add"
  | sub => "sub"
  | mult => "mult"
  | lshift => "lshift"
  | rshift => "rshift"
  | output => "output"
  | nop => "nop"

def ofMnemonic? (word : String) : Option Opcode :=
  all.find? (fun op => op.mnemonic == word)

def isArith : Opcode → Bool
  | add | sub | mult | lshift | rshift => true
  | loadI | load | store | output | nop => false

/-- The slots read, in the order in which they are resolved. A store reads its value from the first
slot and its address from the third. -/
def reads : Opcode → List Slot
  | add | sub | mult | lshift | rshift => [.first, .second]
  | load => [.first]
  | store => [.first, .third]
  | loadI | output | nop => []

def writes : Opcode → Option Slot
  | add | sub | mult | lshift | rshift | load | loadI => some .third
  | store | output | nop => none

def hasConstant : Opcode → Bool
  | loadI | output => true
  | load | store | add | sub | mult | lshift | rshift | nop => false

def slots (op : Opcode) : List Slot := op.reads ++ op.writes.toList

theorem memSlots {op : Opcode} {slot : Slot} :
    slot ∈ op.slots ↔ slot ∈ op.reads ∨ op.writes = some slot := by
  simp [slots]

theorem ofMnemonicMnemonic (op : Opcode) : ofMnemonic? op.mnemonic = some op := by
  cases op <;> decide

end Opcode
end Straightline
