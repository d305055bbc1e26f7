import Straightline.Fault

/-! Next uses. Positions count the instructions of a block from zero; a value that is not read again
has no next use, which ranks after every position. -/
namespace Straightline

/-- Positions lie below this number, which is the rank of a value that is never read again. -/
abbrev positionLimit : Nat := 4294967295

inductive NextUse where
  | read (position : Fin positionLimit)
  | never
  deriving DecidableEq, Repr

namespace NextUse

def ofNat (i : Nat) : Except Fault NextUse :=
  if h : i < positionLimit then .ok (.read ⟨i, h⟩) else .error .positionTooLarge

def position? : NextUse → Option Nat
  | read p => some p.val
  | never => none

def rank : NextUse → Nat
  | read p => p.val
  | never => positionLimit

instance : Ord NextUse := ⟨fun a b => compare a.rank b.rank⟩

def within (u : NextUse) (window : Nat) (farthest : NextUse) : Bool :=
  farthest.rank - window ≤ u.rank

def text : NextUse → String
  | read p => toString p.val
  | never => "inf"

end NextUse
end Straightline
