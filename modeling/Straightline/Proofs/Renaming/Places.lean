import Mathlib.Data.Finset.Card
import Mathlib.Data.List.Dedup
import Straightline.Proofs.Machine

/-! Where a block names its registers. A place is a slot of the instruction at a position. What a
place has to do with the rest of the block is told by the reads and writes of its source register:
the write whose value it is about, if there is one, and the next read of that value. -/
namespace Straightline

def ReadsAt (is : List Instr) (p : Nat) (r : Option SourceReg) : Prop :=
  ∃ i ∈ is[p]?, r ∈ i.readRegs .source

def WritesAt (is : List Instr) (p : Nat) (r : Option SourceReg) : Prop :=
  ∃ i ∈ is[p]?, i.writtenReg .source = some r

instance (is : List Instr) (p : Nat) (r : Option SourceReg) : Decidable (ReadsAt is p r) :=
  inferInstanceAs (Decidable (∃ i ∈ is[p]?, r ∈ i.readRegs .source))

instance (is : List Instr) (p : Nat) (r : Option SourceReg) : Decidable (WritesAt is p r) :=
  inferInstanceAs (Decidable (∃ i ∈ is[p]?, i.writtenReg .source = some r))

def lastWrite (is : List Instr) (r : Option SourceReg) : Nat → Option Nat
  | 0 => none
  | p + 1 => if WritesAt is p r then some p else lastWrite is r p

def exposed (is : List Instr) : Finset (Option SourceReg) :=
  (is.flatMap (Instr.readRegs .source)).toFinset.filter fun r =>
    ∃ p < is.length, ReadsAt is p r ∧ lastWrite is r p = none

/-- The first read of the register behind `p`, with no write from `since` on before it. -/
structure NextRead (is : List Instr) (r : Option SourceReg) (p since q : Nat) : Prop where
  later : p < q
  reads : ReadsAt is q r
  first : ∀ x, p < x → x < q → ¬ ReadsAt is x r
  same : ∀ x, since ≤ x → x < q → ¬ WritesAt is x r

structure FirstRead (is : List Instr) (r : Option SourceReg) (q : Nat) : Prop where
  reads : ReadsAt is q r
  first : ∀ x < q, ¬ ReadsAt is x r
  same : ∀ x < q, ¬ WritesAt is x r

structure Place where
  position : Nat
  slot : Slot
  deriving DecidableEq, Repr

namespace Place

def operand (o : Place) (is : List Instr) : Operand :=
  (is[o.position]?.map (·.operand o.slot)).getD {}

def Read (o : Place) (is : List Instr) : Prop := ∃ i ∈ is[o.position]?, o.slot ∈ i.opcode.reads

def Written (o : Place) (is : List Instr) : Prop :=
  ∃ i ∈ is[o.position]?, i.opcode.writes = some o.slot

def Used (o : Place) (is : List Instr) : Prop := o.Read is ∨ o.Written is

instance (o : Place) (is : List Instr) : Decidable (o.Read is) :=
  inferInstanceAs (Decidable (∃ i ∈ is[o.position]?, o.slot ∈ i.opcode.reads))

instance (o : Place) (is : List Instr) : Decidable (o.Written is) :=
  inferInstanceAs (Decidable (∃ i ∈ is[o.position]?, i.opcode.writes = some o.slot))

instance (o : Place) (is : List Instr) : Decidable (o.Used is) :=
  inferInstanceAs (Decidable (o.Read is ∨ o.Written is))

/-- The position of the write whose value the place is about. A place that is written is about its
own value; a read with no write before it is about the value that its register starts with. -/
def origin (is : List Instr) (o : Place) : Option Nat :=
  if o.Written is then some o.position else lastWrite is (o.operand is).source o.position

def since (is : List Instr) (o : Place) : Nat :=
  if o.Written is then o.position + 1 else o.position

end Place

section
variable {is : List Instr} {i : Instr} {r : Option SourceReg} {p q since : Nat} {s : Slot}

theorem readsAtHead : ReadsAt (i :: is) 0 r ↔ r ∈ i.readRegs .source := by
  simp [ReadsAt]

theorem readsAtTail : ReadsAt (i :: is) (p + 1) r ↔ ReadsAt is p r := by
  simp [ReadsAt]

theorem writesAtHead : WritesAt (i :: is) 0 r ↔ i.writtenReg .source = some r := by
  simp [WritesAt]

theorem writesAtTail : WritesAt (i :: is) (p + 1) r ↔ WritesAt is p r := by
  simp [WritesAt]

theorem readsAtBound (reads : ReadsAt is p r) : p < is.length := by
  obtain ⟨i, found, -⟩ := reads
  exact (List.getElem?_eq_some_iff.mp found).1

theorem readsAtListed (reads : ReadsAt is p r) : r ∈ is.flatMap (Instr.readRegs .source) := by
  obtain ⟨i, found, inside⟩ := reads
  exact List.mem_flatMap.mpr ⟨i, List.mem_of_getElem? found, inside⟩

theorem readsAtPlace : ReadsAt is p r ↔
    ∃ s, (⟨p, s⟩ : Place).Read is ∧ ((⟨p, s⟩ : Place).operand is).source = r := by
  constructor
  · intro reads
    obtain ⟨i, found, inside⟩ := reads
    obtain ⟨s, read, same⟩ := Instr.memReadRegs.mp inside
    refine ⟨s, ⟨i, found, read⟩, ?_⟩
    rw [Place.operand, found, Option.map_some, Option.getD_some]
    exact same
  · intro place
    obtain ⟨s, ⟨i, found, read⟩, same⟩ := place
    rw [Place.operand, found, Option.map_some, Option.getD_some] at same
    exact ⟨i, found, Instr.memReadRegs.mpr ⟨s, read, same⟩⟩

theorem memExposed : r ∈ exposed is ↔ ∃ p, ReadsAt is p r ∧ lastWrite is r p = none := by
  simp only [exposed, Finset.mem_filter, List.mem_toFinset]
  constructor
  · intro inside
    obtain ⟨-, p, -, found⟩ := inside
    exact ⟨p, found⟩
  · intro found
    obtain ⟨p, reads, unwritten⟩ := found
    exact ⟨readsAtListed reads, p, readsAtBound reads, reads, unwritten⟩

theorem lastWriteTail : lastWrite (i :: is) r (p + 1) =
    ((lastWrite is r p).map (· + 1)).or (if i.writtenReg .source = some r then some 0 else none) := by
  induction p with
  | zero => simp [lastWrite, writesAtHead]
  | succ p ih =>
    rw [lastWrite, ih, lastWrite]
    simp only [writesAtTail]
    split <;> rfl

theorem nextReadTail : NextRead (i :: is) r (p + 1) (since + 1) (q + 1) ↔ NextRead is r p since q := by
  constructor
  · intro next
    refine ⟨by have := next.later; omega, readsAtTail.mp next.reads, fun x after before => ?_,
      fun x after before => ?_⟩
    · exact fun reads => next.first (x + 1) (by omega) (by omega) (readsAtTail.mpr reads)
    · exact fun writes => next.same (x + 1) (by omega) (by omega) (writesAtTail.mpr writes)
  · intro next
    refine ⟨by have := next.later; omega, readsAtTail.mpr next.reads, fun x after before => ?_,
      fun x after before => ?_⟩
    · obtain ⟨x, rfl⟩ : ∃ y, x = y + 1 := ⟨x - 1, by omega⟩
      exact fun reads => next.first x (by omega) (by omega) (readsAtTail.mp reads)
    · obtain ⟨x, rfl⟩ : ∃ y, x = y + 1 := ⟨x - 1, by omega⟩
      exact fun writes => next.same x (by omega) (by omega) (writesAtTail.mp writes)

theorem firstReadHead (reads : r ∈ i.readRegs .source) : FirstRead (i :: is) r q ↔ q = 0 := by
  constructor
  · intro first
    by_contra later
    exact first.first 0 (by omega) (readsAtHead.mpr reads)
  · intro zero
    subst zero
    exact ⟨readsAtHead.mpr reads, by omega, by omega⟩

theorem firstReadTail (unread : r ∉ i.readRegs .source) (unwritten : i.writtenReg .source ≠ some r) :
    FirstRead (i :: is) r q ↔ ∃ x, q = x + 1 ∧ FirstRead is r x := by
  cases q with
  | zero =>
    refine ⟨fun first => absurd (readsAtHead.mp first.reads) unread, fun found => ?_⟩
    obtain ⟨x, zero, -⟩ := found
    omega
  | succ q =>
    constructor
    · intro first
      refine ⟨q, rfl, readsAtTail.mp first.reads, fun x less reads => ?_, fun x less writes => ?_⟩
      · exact first.first (x + 1) (by omega) (readsAtTail.mpr reads)
      · exact first.same (x + 1) (by omega) (writesAtTail.mpr writes)
    · intro found
      obtain ⟨x, same, first⟩ := found
      obtain rfl : q = x := by omega
      refine ⟨readsAtTail.mpr first.reads, fun x less reads => ?_, fun x less writes => ?_⟩
      · cases x with
        | zero => exact unread (readsAtHead.mp reads)
        | succ x => exact first.first x (by omega) (readsAtTail.mp reads)
      · cases x with
        | zero => exact unwritten (writesAtHead.mp writes)
        | succ x => exact first.same x (by omega) (writesAtTail.mp writes)

theorem firstReadNone (unread : r ∉ i.readRegs .source) (written : i.writtenReg .source = some r) :
    ¬ FirstRead (i :: is) r q := by
  intro first
  cases q with
  | zero => exact unread (readsAtHead.mp first.reads)
  | succ q => exact first.same 0 (by omega) (writesAtHead.mpr written)

theorem nextReadHead (unended : 1 ≤ since ∨ i.writtenReg .source ≠ some r) (early : since ≤ 1) :
    NextRead (i :: is) r 0 since q ↔ ∃ x, q = x + 1 ∧ FirstRead is r x := by
  cases q with
  | zero =>
    refine ⟨fun next => absurd next.later (Nat.lt_irrefl 0), fun found => ?_⟩
    obtain ⟨x, zero, -⟩ := found
    omega
  | succ q =>
    constructor
    · intro next
      refine ⟨q, rfl, readsAtTail.mp next.reads, fun x less reads => ?_, fun x less writes => ?_⟩
      · exact next.first (x + 1) (by omega) (by omega) (readsAtTail.mpr reads)
      · exact next.same (x + 1) (by omega) (by omega) (writesAtTail.mpr writes)
    · intro found
      obtain ⟨x, same, first⟩ := found
      obtain rfl : q = x := by omega
      refine ⟨by omega, readsAtTail.mpr first.reads, fun x after before reads => ?_,
        fun x after before writes => ?_⟩
      · obtain ⟨x, rfl⟩ : ∃ y, x = y + 1 := ⟨x - 1, by omega⟩
        exact first.first x (by omega) (readsAtTail.mp reads)
      · cases x with
        | zero => exact unended.elim (by omega) fun differ => differ (writesAtHead.mp writes)
        | succ x => exact first.same x (by omega) (writesAtTail.mp writes)

namespace Place

theorem operandHead : (⟨0, s⟩ : Place).operand (i :: is) = i.operand s := rfl

theorem operandTail : (⟨p + 1, s⟩ : Place).operand (i :: is) = (⟨p, s⟩ : Place).operand is := rfl

theorem readHead : (⟨0, s⟩ : Place).Read (i :: is) ↔ s ∈ i.opcode.reads := by
  simp [Read]

theorem readTail : (⟨p + 1, s⟩ : Place).Read (i :: is) ↔ (⟨p, s⟩ : Place).Read is := by
  simp [Read]

theorem writtenHead : (⟨0, s⟩ : Place).Written (i :: is) ↔ i.opcode.writes = some s := by
  simp [Written]

theorem writtenTail : (⟨p + 1, s⟩ : Place).Written (i :: is) ↔ (⟨p, s⟩ : Place).Written is := by
  simp [Written]

theorem usedTail : (⟨p + 1, s⟩ : Place).Used (i :: is) ↔ (⟨p, s⟩ : Place).Used is := by
  rw [Used, Used, readTail, writtenTail]

theorem originHead : origin (i :: is) ⟨0, s⟩ = if i.opcode.writes = some s then some 0 else none := by
  simp only [origin, writtenHead, lastWrite]

theorem originTail : origin (i :: is) ⟨p + 1, s⟩ = ((origin is ⟨p, s⟩).map (· + 1)).or
    (if i.writtenReg .source = some ((⟨p, s⟩ : Place).operand is).source then some 0 else none) := by
  simp only [origin, writtenTail, operandTail, lastWriteTail]
  split <;> rfl

theorem sinceHead : Place.since (i :: is) ⟨0, s⟩ = if i.opcode.writes = some s then 1 else 0 := by
  simp only [Place.since, writtenHead]

theorem sinceTail : Place.since (i :: is) ⟨p + 1, s⟩ = Place.since is ⟨p, s⟩ + 1 := by
  simp only [Place.since, writtenTail]
  split <;> rfl

theorem originRead {o : Place} (none : origin is o = none) (used : o.Used is) : o.Read is := by
  unfold origin at none
  split at none
  · contradiction
  · exact used.resolve_right (by assumption)

end Place
end
end Straightline
