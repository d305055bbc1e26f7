import Straightline.Handle
import Straightline.Register

/-! Faults. A fault is a broken promise between the parts of the program, not a property of the
source text: it stops the work at once and is told apart from the errors that are reported. -/
namespace Straightline

inductive Fault where
  | absent
  | outOfBounds (size index : Nat)
  | numberTooLarge (naming : Naming)
  | positionTooLarge
  | notArithmetic
  | insertedBeforeRenaming
  | looseLink (handle : Handle)
  | looseFirst (first : Option Handle) (handle : Handle)
  | cycle (handle : Handle)
  | beforeMismatch (handle : Handle) (found expected : Option Handle)
  | lastMismatch (found expected : Option Handle)
  | sizeMismatch (linked size : Nat)
  | tooManyRegisters
  | countOverflow
  | countUnderflow
  | noRoom
  | spillAddressOverflow
  | alreadyPlaced
  | registerOccupied
  | pinnedRegisterFree
  | emptyCandidate
  | valueNotSaved
  | homeMismatch (reg : PhysicalReg) (value : VirtualReg) (home : Option PhysicalReg)
  | badFreeList (free : List PhysicalReg)
  | registerCount (occupied free usable : Nat)
  | valueInAddressRegister (value : Nat)
  | occupantMismatch (value : Nat) (home : PhysicalReg) (occupant : Option VirtualReg)
  deriving DecidableEq, Repr

def Reg.ofNat (n : Naming) (i : Nat) : Except Fault (Reg n) :=
  match Reg.ofNat? n i with
  | some r => .ok r
  | none => .error (.numberTooLarge n)

def reserve (n width : Nat) : Except Fault Unit :=
  if n * width < 9223372036854775808 then .ok () else .error .noRoom

def present {α : Type} : Option α → Except Fault α
  | some a => .ok a
  | none => .error .absent

theorem bindOk {α β ε : Type} {x : Except ε α} {g : α → Except ε β} {b : β} :
    (x >>= g) = .ok b ↔ ∃ a, x = .ok a ∧ g a = .ok b := by
  cases x <;> simp [bind, Except.bind]

end Straightline
