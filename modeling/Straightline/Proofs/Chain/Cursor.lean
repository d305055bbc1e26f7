import Mathlib.Data.List.Induction
import Straightline.Proofs.Entries

/-! Passes over a chain from both ends. The two ends of a cursor follow the links in opposite
directions and go past each other when the last element is taken; what stops them is the count that
they share. However the calls at the two ends are mixed, the handles given at the front, those left
and those given at the back make up the chain, so none is given twice and none is left out. -/
namespace Straightline.Chain

inductive End where
  | front
  | back
  deriving DecidableEq, Repr

structure Sweep where
  cursor : Cursor
  fronts : List Handle
  backs : List Handle
  deriving DecidableEq, Repr

variable {α : Type} {c : Chain α}

namespace Sweep

def call (c : Chain α) (s : Sweep) : End → Except Fault Sweep
  | .front => do
    let (answer, cursor) ← s.cursor.next c
    .ok {s with cursor, fronts := s.fronts ++ answer.toList}
  | .back => do
    let (answer, cursor) ← s.cursor.nextBack c
    .ok {s with cursor, backs := s.backs ++ answer.toList}

def calls (c : Chain α) (s : Sweep) (ends : List End) : Except Fault Sweep :=
  ends.foldlM (call c) s

/-- What is left to give is `middle`. Either end stands at its first handle that was not given at
that end, which the other end may have given. -/
structure Leaves (s : Sweep) (c : Chain α) (middle : List Handle) : Prop where
  whole : c.handles = s.fronts ++ (middle ++ s.backs.reverse)
  front : s.cursor.front = (middle ++ s.backs.reverse).head?
  back : s.cursor.back = (s.fronts ++ middle).getLast?
  remaining : s.cursor.remaining = middle.length

section
variable {s : Sweep} {middle rest : List Handle} {h : Handle}

theorem leavesStart (sound : c.Sound) : Leaves ⟨c.cursor, [], []⟩ c c.handles := by
  obtain ⟨first, last⟩ := linkedEnds sound
  refine ⟨by simp, ?_, last, sound.size⟩
  rw [List.reverse_nil, List.append_nil]
  exact first

theorem leavesNext (sound : c.Sound) (leaves : Leaves s c (h :: rest)) :
    ∃ p, s.cursor.next c = .ok (some h, p) ∧
      Leaves {s with cursor := p, fronts := s.fronts ++ [h]} c rest := by
  have linked : c.Linked c.handles := sound
  rw [leaves.whole] at linked
  obtain ⟨l, reads, -, after⟩ := linkNeighbours linked
  have more : s.cursor.remaining ≠ 0 := by simp [leaves.remaining]
  have start : s.cursor.front = some h := leaves.front
  refine ⟨{s.cursor with front := l.after, remaining := s.cursor.remaining - 1}, ?_, ?_, after, ?_, ?_⟩
  · rw [Cursor.next, if_neg more, start, reads]
    rfl
  · simpa using leaves.whole
  · simpa using leaves.back
  · simp [leaves.remaining]

theorem leavesBehind (leaves : Leaves s c (rest ++ [h])) :
    c.handles = (s.fronts ++ rest) ++ h :: s.backs.reverse := by
  simpa using leaves.whole

theorem leavesNextBack (sound : c.Sound) (leaves : Leaves s c (rest ++ [h])) :
    ∃ p, s.cursor.nextBack c = .ok (some h, p) ∧
      Leaves {s with cursor := p, backs := s.backs ++ [h]} c rest := by
  have linked : c.Linked c.handles := sound
  rw [leavesBehind leaves] at linked
  obtain ⟨l, reads, before, -⟩ := linkNeighbours linked
  have more : s.cursor.remaining ≠ 0 := by simp [leaves.remaining]
  have start : s.cursor.back = some h := by simpa using leaves.back
  refine ⟨{s.cursor with back := l.before, remaining := s.cursor.remaining - 1}, ?_, ?_, ?_, before, ?_⟩
  · rw [Cursor.nextBack, if_neg more, start, reads]
    rfl
  · simpa using leaves.whole
  · simpa using leaves.front
  · simp [leaves.remaining]

theorem leavesNothing (leaves : Leaves s c []) :
    s.cursor.next c = .ok (none, s.cursor) ∧ s.cursor.nextBack c = .ok (none, s.cursor) :=
  ⟨if_pos leaves.remaining, if_pos leaves.remaining⟩

theorem callNothing (leaves : Leaves s c []) (e : End) : s.call c e = .ok s := by
  obtain ⟨next, nextBack⟩ := leavesNothing leaves
  cases e with
  | front => simp [call, next, bind, Except.bind]
  | back => simp [call, nextBack, bind, Except.bind]

theorem callsNothing (leaves : Leaves s c []) (ends : List End) : s.calls c ends = .ok s := by
  induction ends with
  | nil => rfl
  | cons e ends ih =>
    rw [calls, List.foldlM_cons, callNothing leaves e]
    exact ih

theorem callLeaves (sound : c.Sound) (leaves : Leaves s c middle) (e : End) :
    ∃ t left, s.call c e = .ok t ∧ Leaves t c left := by
  cases e with
  | front =>
    cases middle with
    | nil => exact ⟨s, [], callNothing leaves .front, leaves⟩
    | cons h rest =>
      obtain ⟨p, next, left⟩ := leavesNext sound leaves
      exact ⟨_, rest, by rw [call, next]; rfl, left⟩
  | back =>
    cases middle using List.reverseRecOn with
    | nil => exact ⟨s, [], callNothing leaves .back, leaves⟩
    | append_singleton rest h =>
      obtain ⟨p, nextBack, left⟩ := leavesNextBack sound leaves
      exact ⟨_, rest, by rw [call, nextBack]; rfl, left⟩

theorem callsLeaves (sound : c.Sound) (ends : List End) (leaves : Leaves s c middle) :
    ∃ t left, s.calls c ends = .ok t ∧ Leaves t c left := by
  induction ends generalizing s middle with
  | nil => exact ⟨s, middle, rfl, leaves⟩
  | cons e ends ih =>
    obtain ⟨t, between, called, leaves⟩ := callLeaves sound leaves e
    obtain ⟨last, left, rest, leaves⟩ := ih leaves
    refine ⟨last, left, ?_, leaves⟩
    rw [calls, List.foldlM_cons, called]
    exact rest

theorem leavesLengths (leaves : Leaves s c middle) :
    c.handles.length = s.fronts.length + middle.length + s.backs.length := by
  rw [leaves.whole, List.length_append, List.length_append, List.length_reverse, Nat.add_assoc]

theorem leavesGiven (leaves : Leaves s c middle) :
    s.fronts = c.handles.take s.fronts.length ∧
      s.backs.reverse = c.handles.drop (c.handles.length - s.backs.length) := by
  have lengths := leavesLengths leaves
  constructor
  · rw [leaves.whole, List.take_left]
  · have split : c.handles.length - s.backs.length = (s.fronts ++ middle).length := by
      rw [List.length_append]
      omega
    rw [split, leaves.whole, ← List.append_assoc, List.drop_left]

theorem leavesAnswers (sound : c.Sound) (leaves : Leaves s c middle) (more : middle ≠ []) :
    (∃ h p, c.handles[s.fronts.length]? = some h ∧ s.cursor.next c = .ok (some h, p)) ∧
      ∃ h p, c.handles[c.handles.length - 1 - s.backs.length]? = some h ∧
        s.cursor.nextBack c = .ok (some h, p) := by
  have lengths := leavesLengths leaves
  constructor
  · obtain ⟨h, rest, rfl⟩ := List.exists_cons_of_ne_nil more
    obtain ⟨p, next, -⟩ := leavesNext sound leaves
    exact ⟨h, p, by simp [leaves.whole], next⟩
  · obtain ⟨rest, h, rfl⟩ : ∃ rest h, middle = rest ++ [h] :=
      ⟨middle.dropLast, middle.getLast more, (List.dropLast_concat_getLast more).symm⟩
    obtain ⟨p, nextBack, -⟩ := leavesNextBack sound leaves
    refine ⟨h, p, ?_, nextBack⟩
    have index : c.handles.length - 1 - s.backs.length = (s.fronts ++ rest).length := by
      simp only [List.length_append, List.length_singleton] at lengths ⊢
      omega
    rw [index, leavesBehind leaves, List.getElem?_append_right (Nat.le_refl _), Nat.sub_self,
      List.getElem?_cons_zero]

end
end Sweep

/-- After any calls, of which `i` gave a handle at the front and `j` gave one at the back, the cursor
reports `n - i - j` of the `n` handles of its chain to be left. As long as there are any, the ends give
the handles at `i` and at `n - 1 - j`; from then on they give nothing. -/
theorem cursorGivesEachOnce (c : Chain α) (built : c.Built) (ends : List End) :
    ∃ (s : Sweep) (i j : Nat), Sweep.calls c ⟨c.cursor, [], []⟩ ends = .ok s ∧
      s.fronts.length = i ∧ s.backs.length = j ∧ i + j ≤ c.handles.length ∧
      s.cursor.remaining = c.handles.length - i - j ∧
      s.fronts = c.handles.take i ∧ s.backs.reverse = c.handles.drop (c.handles.length - j) ∧
      (i + j < c.handles.length →
        (∃ h p, c.handles[i]? = some h ∧ s.cursor.next c = .ok (some h, p)) ∧
          ∃ h p, c.handles[c.handles.length - 1 - j]? = some h ∧
            s.cursor.nextBack c = .ok (some h, p)) ∧
      (i + j = c.handles.length →
        s.cursor.next c = .ok (none, s.cursor) ∧ s.cursor.nextBack c = .ok (none, s.cursor) ∧
          ∀ later, s.calls c later = .ok s) := by
  have sound := (builtSound built).1
  obtain ⟨s, middle, called, leaves⟩ := Sweep.callsLeaves sound ends (Sweep.leavesStart sound)
  have lengths := Sweep.leavesLengths leaves
  obtain ⟨fronts, backs⟩ := Sweep.leavesGiven leaves
  refine ⟨s, _, _, called, rfl, rfl, by omega, by rw [leaves.remaining]; omega, fronts, backs,
    fun more => ?_, fun done => ?_⟩
  · refine Sweep.leavesAnswers sound leaves fun none => ?_
    rw [none, List.length_nil] at lengths
    omega
  · obtain rfl : middle = [] := List.eq_nil_of_length_eq_zero (by omega)
    obtain ⟨next, nextBack⟩ := Sweep.leavesNothing leaves
    exact ⟨next, nextBack, Sweep.callsNothing leaves⟩

def insertedBetween : Chain Nat := (ofList [10, 20]).splice (some 0) 1 30

theorem insertedBetweenGivesEachOnce :
    ∃ s : Sweep, Sweep.calls insertedBetween ⟨insertedBetween.cursor, [], []⟩ [.front, .back] = .ok s ∧
      s.fronts = [0] ∧ s.backs = [1] ∧ s.cursor.remaining = 1 ∧
      (∃ p, s.cursor.next insertedBetween = .ok (some 2, p)) ∧
      ∃ p, s.cursor.nextBack insertedBetween = .ok (some 2, p) := by
  have made : (ofList [10, 20]).insertBefore (some 1) 30 = .ok insertedBetween := by decide +kernel
  have order : insertedBetween.handles = [0, 2, 1] := by decide +kernel
  obtain ⟨s, i, j, called, rfl, rfl, -, remaining, -, -, more, -⟩ :=
    cursorGivesEachOnce insertedBetween (.insert (ofListBuilt _) made) [.front, .back]
  have ran : Sweep.calls insertedBetween ⟨insertedBetween.cursor, [], []⟩ [.front, .back] =
      .ok ⟨⟨some 2, some 2, 1⟩, [0], [1]⟩ := by decide +kernel
  obtain rfl := Except.ok.inj (called.symm.trans ran)
  rw [order] at remaining more
  obtain ⟨⟨h, p, atFront, next⟩, h', p', atBack, nextBack⟩ := more (by decide)
  obtain rfl : 2 = h := Option.some.inj atFront
  obtain rfl : 2 = h' := Option.some.inj atBack
  exact ⟨_, called, rfl, rfl, remaining, ⟨p, next⟩, p', nextBack⟩

end Straightline.Chain
