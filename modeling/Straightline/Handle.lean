/-! Handles. An instruction is named by the number of instructions made before it, so a handle stays
good however the block around it grows. The numbers from 4294967295 on are no names: `Handle.ofNat?`
says what becomes of them. -/
namespace Straightline

abbrev Handle := Nat

/-- The low 32 bits of `n` name an instruction, except the last pattern, which names none. -/
def Handle.ofNat? (n : Nat) : Option Handle :=
  let low := n % 4294967296
  if low = 4294967295 then none else some low

end Straightline
