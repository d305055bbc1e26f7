import Mathlib.Data.Finset.Card
import Straightline.Proofs.Registers

/-! Sets of registers and the sets they stand for. Whatever is put into a set and taken out of it, the
word has the bits of the registers that the same edits leave in a mathematical set: its bits that are
on count the members, and taking the lowest bit off until none is left gives them in increasing
order. -/
namespace Straightline.RegisterSet

inductive Edit where
  | insert (p : PhysicalReg)
  | erase (p : PhysicalReg)
  | clear
  deriving DecidableEq, Repr

namespace Edit

def apply (s : RegisterSet) : Edit → RegisterSet
  | insert p => s.insert p
  | erase p => s.erase p
  | clear => .empty

def members (ps : Finset PhysicalReg) : Edit → Finset PhysicalReg
  | insert p => Insert.insert p ps
  | erase p => ps.erase p
  | clear => ∅

end Edit

def count (s : RegisterSet) : Nat := s.bits.cpop.toNat

def next (s : RegisterSet) : Except Fault (Option PhysicalReg × RegisterSet) :=
  if s.bits = 0 then .ok (none, s) else do
    let p ← Reg.ofNat .physical s.bits.ctz.toNat
    .ok (some p, s.erase p)

def Gives : RegisterSet → List PhysicalReg → Prop
  | s, [] => s.next = .ok (none, s)
  | s, p :: ps => ∃ rest, s.next = .ok (some p, rest) ∧ Gives rest ps

def StandsFor (s : RegisterSet) (ps : Finset PhysicalReg) : Prop :=
  ∀ p, s.contains p = true ↔ p ∈ ps

section
variable {s : RegisterSet} {p : PhysicalReg} {ps qs : List PhysicalReg} {members : Finset PhysicalReg}

theorem containsErase (s : RegisterSet) (p q : PhysicalReg) :
    (s.erase p).contains q = (s.contains q && p != q) := by
  have bound (r : PhysicalReg) : r.number < 64 := r.numberLt
  have same : p.number = q.number ↔ p = q := ⟨Reg.numberInjective, congrArg _⟩
  simp only [containsBit, erase, bit, BitVec.getLsbD_and, BitVec.getLsbD_not, BitVec.getLsbD_twoPow]
  congr 1
  rw [Bool.eq_iff_iff]
  simp [same, bound]

theorem standsForEdit (stands : s.StandsFor members) (e : Edit) :
    (e.apply s).StandsFor (e.members members) := by
  intro q
  cases e with
  | insert p =>
    simp only [Edit.apply, Edit.members, containsInsert, Finset.mem_insert, Bool.or_eq_true, stands q,
      beq_iff_eq]
    exact or_comm.trans (or_congr_left eq_comm)
  | erase p =>
    simp only [Edit.apply, Edit.members, containsErase, Finset.mem_erase, Bool.and_eq_true, stands q,
      bne_iff_ne]
    exact and_comm.trans (and_congr_left' ne_comm)
  | clear => simp [Edit.apply, Edit.members, containsEmpty]

theorem standsForEdits (edits : List Edit) (stands : s.StandsFor members) :
    (edits.foldl Edit.apply s).StandsFor (edits.foldl Edit.members members) := by
  induction edits generalizing s members with
  | nil => exact stands
  | cons e edits ih => exact ih (standsForEdit stands e)

theorem standsForSize (stands : s.StandsFor members) : s.size = members.card := by
  rw [← Finset.length_toList]
  exact sizeMembers members.nodup_toList fun p => (stands p).trans Finset.mem_toList.symm

theorem countBelow (x : BitVec 64) (n acc : Nat) :
    x.cpopNatRec n acc = (List.range n).countP x.getLsbD + acc := by
  induction n generalizing acc with
  | zero => simp
  | succ n ih =>
    rw [BitVec.cpopNatRec_succ, ih, List.range_succ, List.countP_append, List.countP_singleton]
    cases x.getLsbD n with
    | false => simp
    | true => simp [Nat.add_assoc, Nat.add_comm 1]

theorem countSize (s : RegisterSet) : s.count = s.size := by
  have registers : (Reg.below 64).map Reg.number = List.range 64 := by
    rw [Reg.belowNumbers, List.take_of_length_le (by simp)]
  have bits : s.contains = s.bits.getLsbD ∘ Reg.number := funext (containsBit s)
  rw [count, BitVec.toNat_cpop, countBelow, ← registers, List.countP_map, size, toList, bits,
    List.countP_eq_length_filter]
  rfl

theorem lowestMember (nonzero : s.bits ≠ 0) :
    ∃ p, Reg.ofNat .physical s.bits.ctz.toNat = .ok p ∧ s.contains p = true ∧
      ∀ q, s.contains q = true → p.number ≤ q.number := by
  have on : s.bits.getLsbD s.bits.ctz.toNat = true := BitVec.getLsbD_true_ctz_of_ne_zero nonzero
  have bound : s.bits.ctz.toNat < 64 := BitVec.lt_of_getLsbD on
  refine ⟨⟨⟨s.bits.ctz.toNat, bound⟩⟩, ?_, ?_, ?_⟩
  · rw [Reg.ofNat, Reg.ofNat?, dif_pos bound]
  · rw [containsBit]
    exact on
  · intro q member
    rw [containsBit] at member
    refine Nat.le_of_not_lt fun below => ?_
    rw [BitVec.getLsbD_false_of_lt_ctz below] at member
    contradiction

theorem zeroIff : s.bits = 0 ↔ ∀ p, s.contains p = false := by
  constructor
  · intro zero p
    rw [containsBit, zero]
    exact BitVec.getLsbD_zero
  · intro off
    by_contra nonzero
    obtain ⟨p, -, member, -⟩ := lowestMember nonzero
    rw [off p] at member
    contradiction

theorem standsForEmpty (stands : s.StandsFor members) : s.isEmpty = true ↔ members = ∅ := by
  rw [isEmpty, beq_iff_eq, zeroIff, Finset.eq_empty_iff_forall_notMem]
  exact forall_congr' fun p => by rw [← stands p, Bool.not_eq_true]

abbrev Increasing (ps : List PhysicalReg) : Prop := ps.Pairwise fun p q => p.number < q.number

theorem toListIncreasing (s : RegisterSet) : Increasing s.toList := by
  refine List.Pairwise.filter _ (List.pairwise_map.mp ?_)
  rw [Reg.belowNumbers, List.take_range]
  exact List.pairwise_lt_range

theorem increasingUnique (left : Increasing ps) (right : Increasing qs)
    (same : ∀ p, p ∈ ps ↔ p ∈ qs) : ps = qs := by
  have nodup {rs : List PhysicalReg} (increasing : Increasing rs) : rs.Nodup := by
    refine List.Pairwise.imp (fun less same => ?_) increasing
    exact Nat.ne_of_lt less (congrArg Reg.number same)
  refine ((List.perm_ext_iff_of_nodup (nodup left) (nodup right)).mpr same).eq_of_pairwise ?_ left right
  intro p q _ _ less greater
  exact absurd (Nat.lt_trans less greater) (Nat.lt_irrefl _)

theorem toListLowest (member : s.contains p = true)
    (least : ∀ q, s.contains q = true → p.number ≤ q.number) :
    s.toList = p :: (s.erase p).toList := by
  refine increasingUnique (toListIncreasing s) ?_ fun q => ?_
  · refine List.pairwise_cons.mpr ⟨fun q later => ?_, toListIncreasing _⟩
    rw [memToList, containsErase, Bool.and_eq_true, bne_iff_ne] at later
    exact Nat.lt_of_le_of_ne (least q later.1) fun same => later.2 (Reg.numberInjective same)
  · rw [List.mem_cons, memToList, memToList, containsErase, Bool.and_eq_true, bne_iff_ne]
    by_cases same : q = p
    · simp [same, member]
    · simp [same, Ne.symm same]

/-- Each step takes one member away, so the members that are left bound the steps to come. -/
theorem givesMembers (s : RegisterSet) : s.Gives s.toList := by
  by_cases zero : s.bits = 0
  · have nothing : s.toList = [] :=
      List.eq_nil_iff_forall_not_mem.mpr fun p inside => by
        simpa [zeroIff.mp zero p] using memToList.mp inside
    rw [nothing]
    exact if_pos zero
  · obtain ⟨p, named, member, least⟩ := lowestMember zero
    have split := toListLowest member least
    have later := givesMembers (s.erase p)
    rw [split]
    refine ⟨s.erase p, ?_, later⟩
    rw [next, if_neg zero, named]
    rfl
termination_by s.toList.length
decreasing_by simp [split]

end

/-- After any edits of an empty set, membership, emptiness and size are those of the set that the same
edits make, and so is the number of bits that are on. Asking for one register after the other gives
the members in increasing order, each once, and ends. -/
theorem editsKeepMembers (edits : List Edit) :
    let s := edits.foldl Edit.apply .empty
    let members := edits.foldl Edit.members ∅
    (∀ p, s.contains p = true ↔ p ∈ members) ∧ (s.isEmpty = true ↔ members = ∅) ∧
      s.size = members.card ∧ s.count = members.card ∧
      ∃ ps, s.Gives ps ∧ ps = s.toList ∧ Increasing ps ∧ ∀ p, p ∈ ps ↔ p ∈ members := by
  intro s members
  have stands : s.StandsFor members := standsForEdits edits fun p => by simp [containsEmpty]
  have size := standsForSize stands
  refine ⟨stands, standsForEmpty stands, size, (countSize s).trans size, s.toList, givesMembers s, rfl,
    toListIncreasing s, fun p => ?_⟩
  rw [memToList]
  exact stands p

end Straightline.RegisterSet
