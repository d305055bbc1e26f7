import Straightline.Fault

/-! Sets of physical registers, one bit of a word for each register. The members of a set are its
registers in increasing order. -/
namespace Straightline

structure RegisterSet where
  bits : BitVec 64
  deriving DecidableEq, Repr

namespace RegisterSet

def empty : RegisterSet := ⟨0⟩

def bit (p : PhysicalReg) : BitVec 64 := BitVec.twoPow 64 p.number

def insert (s : RegisterSet) (p : PhysicalReg) : RegisterSet := ⟨s.bits ||| bit p⟩

def erase (s : RegisterSet) (p : PhysicalReg) : RegisterSet := ⟨s.bits &&& ~~~bit p⟩

def contains (s : RegisterSet) (p : PhysicalReg) : Bool := s.bits &&& bit p != 0

def isEmpty (s : RegisterSet) : Bool := s.bits == 0

def toList (s : RegisterSet) : List PhysicalReg := (Reg.below 64).filter s.contains

def size (s : RegisterSet) : Nat := s.toList.length

end RegisterSet
end Straightline
