import Straightline.Chain
import Straightline.Instr

/-! Blocks. A block is a chain of instructions. The instructions that the source wrote are the given
ones; allocation puts others between them, which only ever name physical registers. -/
namespace Straightline

abbrev Block := Chain Instr

namespace Block

def withRoom (n : Nat) : Except Fault Block := do
  reserve n 68
  .ok .empty

def numInserted (b : Block) : Nat := b.values.countP (·.inserted)

def given (b : Block) : List Instr := b.values.filter (!·.inserted)

theorem givenAll {b : Block} (given : ∀ i ∈ b.values, i.inserted = false) : b.given = b.values :=
  List.filter_eq_self.mpr fun i inside => by simp [given i inside]

end Block

def Operand.text (op : Operand) (n : Naming) : String :=
  match op.reg n with
  | some r => s!"r{r.number}"
  | none => "r?"

namespace Instr

def text (i : Instr) (n : Naming) : String :=
  let reg (s : Slot) := (i.operand s).text (if i.inserted then .physical else n)
  match i.opcode with
  | .loadI => s!"loadI {i.constant} => {reg .third}"
  | .load | .store => s!"{i.opcode.mnemonic} {reg .first} => {reg .third}"
  | .add | .sub | .mult | .lshift | .rshift =>
    s!"{i.opcode.mnemonic} {reg .first}, {reg .second} => {reg .third}"
  | .output => s!"output {i.constant}"
  | .nop => "nop"

end Instr

def Block.text (b : Block) (n : Naming) : String :=
  String.join (b.values.map fun i => i.text n ++ "\n")

end Straightline
