import Straightline.Block

/-! Operand tables: a line for each instruction with its mnemonic and its three slots, each showing
the source register, the immediate or nothing. -/
namespace Straightline

def Naming.mark : Naming → String
  | source => "sr"
  | virtual => "v"
  | physical => "p"

def Naming.absentNumber : Naming → Nat
  | source => 4294967295
  | virtual => 4294967295
  | physical => 255

def label {n : Naming} (r : Option (Reg n)) : String :=
  n.mark ++ toString ((r.map Reg.number).getD n.absentNumber)

def Reg.label {n : Naming} (r : Reg n) : String := Straightline.label (some r)

namespace Instr

def cells (i : Instr) : List String :=
  let reg (s : Slot) := s!"[ {label (i.operand s).source} ]"
  let value := s!"[ val {i.constant} ]"
  match i.opcode with
  | .loadI => [value, "[ ]", reg .third]
  | .output => [value, "[ ]", "[ ]"]
  | .load | .store => [reg .first, "[ ]", reg .third]
  | .add | .sub | .mult | .lshift | .rshift => [reg .first, reg .second, reg .third]
  | .nop => ["[ ]", "[ ]", "[ ]"]

def tableRow (i : Instr) : String :=
  let name := i.opcode.mnemonic
  name.pushn ' ' (7 - name.length) ++ " " ++ String.intercalate ", " i.cells

end Instr

def Block.table (b : Block) : String :=
  String.join (b.values.map fun i => i.tableRow ++ "\n")

end Straightline
