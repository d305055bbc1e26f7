import Mathlib.Data.Finset.Card
import Straightline.Proofs.Allocation.NextUses

/-! Reuse intervals. Where a slot is read or written whose value is read again, an interval starts that
stops at that read. A set of intervals can be kept in a number of registers when at every instruction
those registers hold what is read there with the intervals that cross the instruction, and then what
is written there with the intervals of the other values that go on. -/
namespace Straightline.Allocation
open Renaming (Env Step Renames Passes envAbove)

structure Reuse where
  value : VirtualReg
  start : Nat
  stop : Nat
  deriving DecidableEq, Repr

def Reuse.ofOperand (position : Nat) (op : Operand) : Option Reuse := do
  let v ← op.virtual
  let x ← op.nextUse.position?
  some ⟨v, position, x⟩

def reusesAt (position : Nat) (i : Instr) : Finset Reuse :=
  ((i.readOperands ++ i.writtenOperand.toList).filterMap (Reuse.ofOperand position)).toFinset

def reuses (position : Nat) : List Instr → Finset Reuse
  | [] => ∅
  | i :: is => reusesAt position i ∪ reuses (position + 1) is

def KeptAt (usable : Nat) (kept : Finset Reuse) (position : Nat) (i : Instr) : Prop :=
  (kept.filter fun x => x.start < position ∧ position < x.stop).card +
      (i.readRegs .virtual).toFinset.card ≤ usable ∧
    ∀ v ∈ i.writtenReg .virtual, (kept.filter fun x => x.start ≤ position ∧ position < x.stop ∧
      some x.value ≠ v).card + 1 ≤ usable

/-- The intervals of `kept` can be kept in `usable` registers along the instructions. -/
def Keepable (usable : Nat) (kept : Finset Reuse) (position : Nat) : List Instr → Prop
  | [] => True
  | i :: is => KeptAt usable kept position i ∧ Keepable usable kept (position + 1) is

instance (usable : Nat) (kept : Finset Reuse) (position : Nat) (i : Instr) :
    Decidable (KeptAt usable kept position i) :=
  inferInstanceAs (Decidable (_ ∧ _))

instance decidableKeepable (usable : Nat) (kept : Finset Reuse) :
    (position : Nat) → (is : List Instr) → Decidable (Keepable usable kept position is)
  | _, [] => .isTrue trivial
  | position, i :: is =>
    have := decidableKeepable usable kept (position + 1) is
    inferInstanceAs (Decidable (KeptAt usable kept position i ∧ Keepable usable kept (position + 1) is))

section
variable {position : Nat} {i j : Instr} {is : List Instr} {x y : Reuse} {all kept : Finset Reuse}
  {es : List (Handle × Instr)} {steps : List Step} {s : Step} {above : Env}

theorem ofOperandSome {op : Operand} : Reuse.ofOperand position op = some x ↔
    x.start = position ∧ op.virtual = some x.value ∧ op.nextUse.position? = some x.stop := by
  unfold Reuse.ofOperand
  obtain ⟨v, start, stop⟩ := x
  cases op.virtual with
  | none => simp
  | some w => cases op.nextUse.position? <;> simp [eq_comm, and_left_comm]

theorem memReusesAt : x ∈ reusesAt position i ↔ x.start = position ∧
    ∃ slot, (slot ∈ i.opcode.reads ∨ i.opcode.writes = some slot) ∧
      (i.operand slot).virtual = some x.value ∧ (i.operand slot).nextUse.position? = some x.stop := by
  simp only [reusesAt, List.mem_toFinset, List.mem_filterMap, ofOperandSome, List.mem_append,
    Option.mem_toList, Instr.readOperands, Instr.writtenOperand, List.mem_map,
    Option.map_eq_some_iff]
  constructor
  · intro found
    obtain ⟨op, ⟨slot, inside, rfl⟩ | ⟨slot, writes, rfl⟩, start, use⟩ := found
    · exact ⟨start, slot, .inl inside, use⟩
    · exact ⟨start, slot, .inr writes, use⟩
  · intro found
    obtain ⟨start, slot, inside | writes, use⟩ := found
    · exact ⟨_, .inl ⟨slot, inside, rfl⟩, start, use⟩
    · exact ⟨_, .inr ⟨slot, writes, rfl⟩, start, use⟩

theorem reusesBound (inside : x ∈ reuses position is) :
    position ≤ x.start ∧ x.start < position + is.length := by
  induction is generalizing position with
  | nil => simp [reuses] at inside
  | cons i is ih =>
    rw [List.length_cons]
    rcases Finset.mem_union.mp inside with here | later
    · have start := (memReusesAt.mp here).1
      omega
    · have bound := ih later
      omega

theorem reusesStop (inside : x ∈ reuses position is) : x.stop < positionLimit := by
  induction is generalizing position with
  | nil => simp [reuses] at inside
  | cons i is ih =>
    rcases Finset.mem_union.mp inside with here | later
    · obtain ⟨-, slot, -, -, stop⟩ := memReusesAt.mp here
      cases use : (i.operand slot).nextUse with
      | never =>
        rw [use] at stop
        contradiction
      | read q =>
        rw [use] at stop
        exact Option.some.inj stop ▸ q.isLt
    · exact ih later

theorem reusesHead (start : x.start = position) :
    x ∈ reuses position (i :: is) ↔ x ∈ reusesAt position i := by
  rw [reuses, Finset.mem_union]
  refine ⟨fun inside => inside.resolve_right fun later => ?_, .inl⟩
  have bound := reusesBound later
  omega

theorem reusesTail (start : position < x.start) :
    x ∈ reuses position (i :: is) ↔ x ∈ reuses (position + 1) is := by
  rw [reuses, Finset.mem_union]
  refine ⟨fun inside => inside.resolve_left fun here => ?_, .inr⟩
  have start' := (memReusesAt.mp here).1
  omega

theorem reuseNext (pass : Passes position (envAbove steps) i j above)
    (rest : Renames (position + 1) es steps) (inside : x ∈ reusesAt position j) :
    ∃ u, (envAbove steps).Next x.value u ∧ u.rank = x.stop := by
  obtain ⟨-, slot, used, virtual, stop⟩ := memReusesAt.mp inside
  have again : (j.operand slot).nextUse ≠ .never := fun never => by
    rw [never] at stop
    contradiction
  refine ⟨_, Renaming.nextAfter pass rest used virtual again, ?_⟩
  cases use : (j.operand slot).nextUse with
  | never => exact absurd use again
  | read q =>
    rw [use] at stop
    exact Option.some.inj stop

theorem reusesOnce (renames : Renames position es steps)
    (first : x ∈ reuses position (steps.map Step.instr))
    (second : y ∈ reuses position (steps.map Step.instr)) (value : x.value = y.value)
    (start : x.start = y.start) : x = y := by
  induction renames with
  | nil => simp [reuses] at first
  | @cons position h i j env es steps inRange pass rest ih =>
    have bound := (reusesBound first).1
    rcases Nat.eq_or_lt_of_le bound with here | later
    · obtain ⟨u, next, stop⟩ := reuseNext pass rest ((reusesHead here.symm).mp first)
      obtain ⟨u', next', stop'⟩ := reuseNext pass rest
        ((reusesHead (start.symm.trans here.symm)).mp second)
      rw [← value] at next'
      have same := Renaming.nextUnique (Renaming.renamesSound rest) next next'
      cases x
      cases y
      simp only [Reuse.mk.injEq] at value start stop stop' ⊢
      exact ⟨value, start, by rw [← stop, ← stop', same]⟩
    · exact ih ((reusesTail later).mp first) ((reusesTail (start ▸ later)).mp second)

end
end Straightline.Allocation
