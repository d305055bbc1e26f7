import Straightline.Proofs.Allocation.Moves
import Straightline.Proofs.CheckStep
import Straightline.Proofs.Registers

/-! A sound ledger passes the audits. -/
namespace Straightline.Allocation

structure Plan.Sound (plan : Plan) : Prop where
  few : plan.usable ≤ 64
  address : ∀ a ∈ plan.address, a.number = plan.usable

section
variable {plan : Plan} {n : Nat} {s : State} {l : Ledger}

theorem regNumbered {i : Nat} (less : i < 64) :
    ∃ p : PhysicalReg, p.number = i ∧ Reg.ofNat? .physical i = some p :=
  ⟨⟨⟨i, less⟩⟩, rfl, dif_pos less⟩

theorem belowGet {k i : Nat} (less : i < k) (few : k ≤ 64) :
    (Reg.below k)[i]? = Reg.ofNat? .physical i := by
  have bound : i < (Reg.below k).length := by rwa [Reg.belowLength few]
  have number : ((Reg.below k)[i]).number = i := by
    have numbers : ((Reg.below k).map Reg.number)[i]? = ((List.range 64).take k)[i]? := by
      rw [Reg.belowNumbers]
    rw [List.take_range, List.getElem?_map, List.getElem?_eq_getElem bound,
      List.getElem?_range (by omega)] at numbers
    exact Option.some.inj numbers
  rw [List.getElem?_eq_getElem bound, ← Reg.ofNatNumber (Reg.below k)[i], number]

theorem registersListed (reflects : Reflects plan n s l) (few : plan.usable ≤ 64) :
    s.registers.toList = (Reg.below plan.usable).map l.holder := by
  refine List.ext_getElem? fun i => ?_
  rw [List.getElem?_map, Array.getElem?_toList]
  rcases Nat.lt_or_ge i plan.usable with less | more
  · have inside : i < s.registers.size := by rwa [reflects.registers]
    obtain ⟨p, rfl, named⟩ := regNumbered (Nat.lt_of_lt_of_le less few)
    rw [belowGet less few, named, Option.map_some, reflects.holder,
      Array.getElem?_eq_getElem inside, Option.join_some]
  · rw [Array.getElem?_eq_none (by rwa [reflects.registers]),
      List.getElem?_eq_none (by rwa [Reg.belowLength few])]
    rfl

theorem memOccupied {i : Nat} {o : Occupant} (inside : (i, o) ∈ s.occupied) :
    s.registers[i]? = some (some o) := by
  obtain ⟨⟨o', i'⟩, listed, found⟩ := List.mem_filterMap.mp inside
  obtain ⟨o'', rfl, same⟩ := Option.map_eq_some_iff.mp found
  cases same
  have entry := List.mem_zipIdx_iff_getElem?.mp listed
  rwa [Array.getElem?_toList] at entry

theorem indexedLength {α : Type} (os : List (Option α)) (j : Nat) :
    ((os.zipIdx j).filterMap fun (o, i) => o.map (i, ·)).length = os.countP Option.isSome := by
  induction os generalizing j with
  | nil => rfl
  | cons o os ih =>
    rw [List.zipIdx_cons, List.countP_cons]
    cases o with
    | none => simpa using ih (j + 1)
    | some x => simpa using ih (j + 1)

theorem auditOccupantOk (reflects : Reflects plan n s l) (few : plan.usable ≤ 64)
    (tables : Tables plan n l l.free) {e : Nat × Occupant} (inside : e ∈ s.occupied) :
    s.auditOccupant e = .ok () := by
  obtain ⟨i, o⟩ := e
  have entry := memOccupied inside
  have bound : i < s.registers.size := (Array.getElem?_eq_some_iff.mp entry).1
  rw [reflects.registers] at bound
  obtain ⟨p, rfl, named⟩ := regNumbered (Nat.lt_of_lt_of_le bound few)
  have held : l.holder p = some o := by rw [reflects.holder, entry, Option.join_some]
  have known : o.value.number < s.values.size := by
    rw [reflects.values]
    exact (tables.held p o held).2
  have home := (tables.home o.value p).mpr ⟨o.nextUse, held⟩
  rw [reflects.record, Array.getElem?_eq_getElem known, Option.getD_some] at home
  simp only [State.auditOccupant, Reg.ofNat, named, bind, Except.bind,
    Array.getElem?_eq_getElem known, home, ↓reduceIte]

theorem freeSetOk (full : List PhysicalReg) {ps : List PhysicalReg} (seen : RegisterSet)
    (nodup : ps.Nodup) (empty : ∀ p ∈ ps, s.registers[p.number]? = some none)
    (apart : ∀ p ∈ ps, seen.contains p = false) :
    ∃ set, ps.foldlM (fun seen p =>
        match s.registers[p.number]? with
        | some none => if seen.contains p then .error (.badFreeList full) else .ok (seen.insert p)
        | some (some _) => .error (.badFreeList full)
        | none => .error (.outOfBounds s.registers.size p.number)) seen =
          (.ok set : Except Fault RegisterSet) ∧
      ∀ p, set.contains p = true ↔ seen.contains p = true ∨ p ∈ ps := by
  induction ps generalizing seen with
  | nil => exact ⟨seen, rfl, by simp⟩
  | cons p ps ih =>
    obtain ⟨unlisted, nodup⟩ := List.nodup_cons.mp nodup
    obtain ⟨set, folded, members⟩ := ih (seen.insert p) nodup
      (fun q inside => empty q (List.mem_cons_of_mem _ inside)) fun q inside => by
        have differ : p ≠ q := fun same => unlisted (same ▸ inside)
        simp [RegisterSet.containsInsert, differ, apart q (List.mem_cons_of_mem _ inside)]
    refine ⟨set, ?_, fun q => ?_⟩
    · rw [List.foldlM_cons]
      simp only [empty p List.mem_cons_self, apart p List.mem_cons_self]
      exact folded
    · rw [members, RegisterSet.containsInsert, List.mem_cons, Bool.or_eq_true, beq_iff_eq, or_assoc,
        eq_comm (a := p)]

theorem occupiedLength (reflects : Reflects plan n s l) (few : plan.usable ≤ 64) :
    s.occupied.length = (Reg.below plan.usable).countP fun p => (l.holder p).isSome := by
  rw [State.occupied, indexedLength, registersListed reflects few, List.countP_map]
  rfl

theorem freeLength (tables : Tables plan n l l.free) :
    l.free.length = (Reg.below plan.usable).countP fun p => decide ¬ (l.holder p).isSome = true := by
  rw [List.countP_eq_length_filter]
  refine ((List.perm_ext_iff_of_nodup tables.nodup ((Reg.belowNodup _).filter _)).mpr
    fun p => ?_).length_eq
  rw [tables.empty, List.mem_filter, Reg.memBelow]
  simp

theorem auditOk (reflects : Reflects plan n s l) (few : plan.usable ≤ 64)
    (tables : Tables plan n l l.free) : s.audit plan = .ok () := by
  have occupants : s.occupied.forM s.auditOccupant = .ok () :=
    Check.forMOk.mpr fun _ inside => auditOccupantOk reflects few tables inside
  have empty : ∀ p ∈ s.free, s.registers[p.number]? = some none := by
    intro p inside
    rw [← reflects.free] at inside
    obtain ⟨usable, empty⟩ := (tables.empty p).mp inside
    have bound : p.number < s.registers.size := by rwa [reflects.registers]
    rw [reflects.holder, Array.getElem?_eq_getElem bound, Option.join_some] at empty
    rw [Array.getElem?_eq_getElem bound, empty]
  obtain ⟨set, folded, members⟩ := freeSetOk s.free .empty (reflects.free ▸ tables.nodup)
    empty fun p _ => RegisterSet.containsEmpty p
  have size : set.size = l.free.length := by
    refine RegisterSet.sizeMembers tables.nodup fun p => ?_
    rw [members, RegisterSet.containsEmpty, reflects.free]
    simp
  have total : s.occupied.length + set.size = plan.usable := by
    rw [size, freeLength tables, occupiedLength reflects few,
      ← List.length_eq_countP_add_countP, Reg.belowLength few]
  rw [State.audit, occupants]
  simp only [bind, Except.bind]
  rw [show s.freeSet = .ok set from folded]
  simp only [total, ne_eq, not_true_eq_false, ↓reduceIte]
  rfl

theorem auditValueOk (reflects : Reflects plan n s l) (plans : plan.Sound)
    (tables : Tables plan n l l.free) (named : n ≤ Naming.virtual.limit) {e : Value × Nat}
    (inside : e ∈ s.values.toList.zipIdx) : s.auditValue plan e = .ok () := by
  obtain ⟨x, i⟩ := e
  have entry := List.mem_zipIdx_iff_getElem?.mp inside
  rw [Array.getElem?_toList] at entry
  have bound : i < n := by
    rw [← reflects.values]
    exact (Array.getElem?_eq_some_iff.mp entry).1
  let v : VirtualReg := ⟨⟨i, Nat.lt_of_lt_of_le bound named⟩⟩
  have number : v.number = i := rfl
  have record : l.record v = x := by rw [reflects.record, number, entry, Option.getD_some]
  cases home : x.home with
  | none => simp only [State.auditValue, home]
  | some p =>
    rw [← record] at home
    obtain ⟨u, held⟩ := (tables.home v p).mp home
    have usable := (tables.held p _ held).1
    have ordinary : plan.address ≠ some p := fun address => by
      have number := plans.address p address
      omega
    have there : s.registers[p.number]? = some (some ⟨v, u⟩) := by
      have inside : p.number < s.registers.size := by rwa [reflects.registers]
      rw [reflects.holder, Array.getElem?_eq_getElem inside, Option.join_some] at held
      rw [Array.getElem?_eq_getElem inside, held]
    rw [record] at home
    simp [State.auditValue, home, ordinary, there, number]

theorem auditAllOk (reflects : Reflects plan n s l) (plans : plan.Sound)
    (tables : Tables plan n l l.free) (named : n ≤ Naming.virtual.limit) :
    s.auditAll plan = .ok () := by
  have values : s.values.toList.zipIdx.forM (s.auditValue plan) = .ok () :=
    Check.forMOk.mpr fun _ inside => auditValueOk reflects plans tables named inside
  rw [State.auditAll, auditOk reflects plans.few tables]
  simp only [bind, Except.bind, values]
  exact Chain.spellsValidate reflects.spells

end
end Straightline.Allocation
