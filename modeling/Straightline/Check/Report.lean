import Straightline.Check
import Straightline.Dump

/-! What the checker says about a block that is allocated wrongly. -/
namespace Straightline.Check

def Content.dump : Content → String
  | unknown => "Unknown"
  | value v => s!"VReg({dumpReg v})"
  | constant c => s!"Const({c})"

def Error.message : Error → String
  | missing h slot => s!"{dumpHandle h} slot {slot.index}: no physical register"
  | outOfRange h slot p => s!"{dumpHandle h} slot {slot.index}: {p.label} is out of range"
  | addressInGiven h slot =>
    s!"{dumpHandle h} slot {slot.index}: original instruction uses the spill address register"
  | incorrect h slot p expected actual =>
    s!"{dumpHandle h} slot {slot.index}: {p.label} should hold {label expected} " ++
      s!"but holds {actual.dump}"
  | badAddress h p actual =>
    s!"{dumpHandle h}: spill address register {p.label} holds {actual.dump}"
  | unexpectedOperation h op => s!"{dumpHandle h}: unexpected inserted {op.mnemonic}"

def report (errors : List Error) : String :=
  s!"{errors.length} allocation error(s):\n" ++
    String.join (errors.map fun e => s!"  {e.message}\n")

end Straightline.Check
