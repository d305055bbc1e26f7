import Std.Data.TreeMap

/-! Registers. A block names its registers three times: as the source writes them, with one name for
each live range, and as the physical registers that carry the values. A register of any naming is a
number below that naming's limit, and a place that has no register of a naming holds none. -/
namespace Straightline

abbrev Word := UInt32

inductive Naming where
  | source
  | virtual
  | physical
  deriving DecidableEq, Repr

abbrev Naming.limit : Naming → Nat
  | .source => 4294967295
  | .virtual => 4294967295
  | .physical => 64

structure Reg (n : Naming) where
  index : Fin n.limit
  deriving DecidableEq, Repr

abbrev SourceReg := Reg .source
abbrev VirtualReg := Reg .virtual
abbrev PhysicalReg := Reg .physical

namespace Reg

variable {n : Naming}

def number (r : Reg n) : Nat := r.index.val

def ofNat? (n : Naming) (i : Nat) : Option (Reg n) :=
  if h : i < n.limit then some ⟨⟨i, h⟩⟩ else none

theorem numberLt (r : Reg n) : r.number < n.limit := r.index.isLt

theorem numberInjective {a b : Reg n} (same : a.number = b.number) : a = b := by
  cases a
  cases b
  simp only [number] at same
  simp only [mk.injEq]
  exact Fin.ext same

theorem numberOfNat {i : Nat} {r : Reg n} (named : ofNat? n i = some r) : r.number = i := by
  unfold ofNat? at named
  split at named
  · cases named
    rfl
  · contradiction

theorem ofNatNumber (r : Reg n) : ofNat? n r.number = some r := by
  simp [ofNat?, numberLt]
  rfl

instance : Ord (Reg n) := ⟨compareOn index⟩

instance : Std.TransOrd (Reg n) :=
  inferInstanceAs (Std.TransCmp (compareOn (index : Reg n → Fin n.limit)))

instance : Std.LawfulEqOrd (Reg n) where
  eq_of_compare {a b} equal := by
    have indices : compare a.index b.index = .eq := equal
    have same : a.index = b.index := Std.LawfulEqOrd.eq_of_compare indices
    cases a
    cases b
    simpa using same

def below (k : Nat) : List PhysicalReg := ((List.finRange 64).take k).map Reg.mk

end Reg

def compareAbsentLast {α : Type} [Ord α] : Option α → Option α → Ordering
  | some a, some b => compare a b
  | some _, none => .lt
  | none, some _ => .gt
  | none, none => .eq

end Straightline
