import Mathlib.Data.List.FinRange
import Mathlib.Data.List.Nodup
import Straightline.RegisterSet

/-! Lists and sets of physical registers. The registers below a number are listed once each and in
order; a set has the members that were put into it. -/
namespace Straightline

namespace Reg

theorem belowNumbers (k : Nat) : (below k).map number = (List.range 64).take k := by
  have all : (List.finRange 64).map Fin.val = List.range 64 := by decide
  rw [← all, ← List.map_take, below, List.map_map]
  rfl

theorem memBelow {k : Nat} {p : PhysicalReg} : p ∈ below k ↔ p.number < k := by
  have bound := p.numberLt
  constructor
  · intro inside
    have listed := List.mem_map_of_mem (f := number) inside
    rw [belowNumbers, List.take_range, List.mem_range] at listed
    omega
  · intro less
    have listed : p.number ∈ (below k).map number := by
      rw [belowNumbers, List.take_range, List.mem_range]
      exact Nat.lt_min.mpr ⟨less, bound⟩
    obtain ⟨q, inside, same⟩ := List.mem_map.mp listed
    rwa [← numberInjective same]

theorem belowNodup (k : Nat) : (below k).Nodup := by
  refine List.Nodup.of_map number ?_
  rw [belowNumbers, List.take_range]
  exact List.nodup_range

theorem belowLength {k : Nat} (few : k ≤ 64) : (below k).length = k := by
  rw [← List.length_map number, belowNumbers, List.take_range, List.length_range]
  omega

end Reg

namespace RegisterSet

theorem containsBit (s : RegisterSet) (p : PhysicalReg) :
    s.contains p = s.bits.getLsbD p.number := by
  have bound := p.numberLt
  rw [contains, bit, Bool.eq_iff_iff, bne_iff_ne, BitVec.and_twoPow]
  split
  · rename_i on
    simp only [on, iff_true]
    intro zero
    have bit := congrArg (fun x : BitVec 64 => x.getLsbD p.number) zero
    simp [bound] at bit
  · rename_i off
    simp [off]

theorem containsEmpty (p : PhysicalReg) : empty.contains p = false := by
  simp [containsBit, empty]

theorem containsInsert (s : RegisterSet) (p q : PhysicalReg) :
    (s.insert p).contains q = (s.contains q || p == q) := by
  have bound : p.number < 64 := p.numberLt
  have same : p.number = q.number ↔ p = q := ⟨Reg.numberInjective, congrArg _⟩
  simp only [containsBit, insert, bit, BitVec.getLsbD_or, BitVec.getLsbD_twoPow]
  congr 1
  rw [Bool.eq_iff_iff]
  simp [same, bound]

theorem memToList {s : RegisterSet} {p : PhysicalReg} : p ∈ s.toList ↔ s.contains p = true := by
  simp [toList, Reg.memBelow, p.numberLt]

theorem sizeMembers {s : RegisterSet} {ps : List PhysicalReg} (nodup : ps.Nodup)
    (members : ∀ p, s.contains p = true ↔ p ∈ ps) : s.size = ps.length := by
  have listed : s.toList.Nodup := (Reg.belowNodup 64).filter _
  refine ((List.perm_ext_iff_of_nodup listed nodup).mpr fun p => ?_).length_eq
  rw [memToList, members]

end RegisterSet
end Straightline
