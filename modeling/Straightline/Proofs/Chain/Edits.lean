import Mathlib.Data.List.Induction
import Straightline.Proofs.Entries

/-! Edits of a chain. Whatever elements are added at the end or inserted before others, and in
whatever order, the links spell the list that the same edits make of a plain list of handles: forward
from the first element, and backward from the last. An element keeps the handle and the value it was
made with, and no check on the way fails. -/
namespace Straightline.Chain

inductive Edit (α : Type) where
  | push (value : α)
  | insert (before : Handle) (value : α)
  deriving DecidableEq, Repr

def placeBefore (new h : Handle) : List Handle → List Handle
  | [] => []
  | x :: xs => if x = h then new :: x :: xs else x :: placeBefore new h xs

variable {α : Type} {c : Chain α}

namespace Edit

def value : Edit α → α
  | push value => value
  | insert _ value => value

def target : Edit α → Option Handle
  | push _ => none
  | insert h _ => some h

def apply (c : Chain α) : Edit α → Except Fault (Handle × Chain α)
  | push value => .ok (c.fresh, c.push value)
  | insert h value => do
    let d ← c.insertBefore (some h) value
    .ok (c.fresh, d)

def place (new : Handle) (hs : List Handle) : Edit α → List Handle
  | push _ => hs ++ [new]
  | insert h _ => placeBefore new h hs

end Edit

def applyAll (c : Chain α) : List (Edit α) → Except Fault (List Handle × Chain α)
  | [] => .ok ([], c)
  | e :: edits => do
    let (h, d) ← e.apply c
    let (hs, last) ← applyAll d edits
    .ok (h :: hs, last)

def placeAll (made : Nat) (hs : List Handle) : List (Edit α) → List Handle
  | [] => hs
  -- Elements are numbered in the order in which they are made, wherever they are put.
  | e :: edits => placeAll (made + 1) (e.place made hs) edits

def Meets (step : Option Handle → Except Fault (Option Handle)) : Option Handle → List Handle → Prop
  | start, [] => start = none
  | start, h :: hs => start = some h ∧ ∃ next, step start = .ok next ∧ Meets step next hs

/-- The chain has the elements `values`, in the order in which they were made, and links them all in
the order `hs`. -/
structure Holds (c : Chain α) (hs : List Handle) (values : List α) : Prop where
  linked : c.Linked hs
  stored : ∀ x : Handle, c.links[x]?.map Link.value = values[x]?
  placed : ∀ x < values.length, x ∈ hs

section
variable {hs pre post : List Handle} {values : List α} {new h : Handle}

theorem placeBeforeAt (outside : h ∉ pre) :
    placeBefore new h (pre ++ h :: post) = pre ++ new :: h :: post := by
  induction pre with
  | nil => simp [placeBefore]
  | cons x pre ih =>
    have differ : x ≠ h := fun same => outside (same ▸ List.mem_cons_self)
    have later : h ∉ pre := fun inside => outside (List.mem_cons_of_mem x inside)
    rw [List.cons_append, placeBefore, if_neg differ, ih later, List.cons_append]

theorem meetsForward (linked : c.Linked (pre ++ post)) : Meets c.next post.head? post := by
  induction post generalizing pre with
  | nil => rfl
  | cons h post ih =>
    obtain ⟨l, reads, -, after⟩ := linkNeighbours linked
    rw [List.append_cons] at linked
    refine ⟨rfl, post.head?, ?_, ih linked⟩
    rw [List.head?_cons, next, reads, Except.map, after]

theorem meetsBackward (linked : c.Linked (pre ++ post)) :
    Meets c.prev pre.getLast? pre.reverse := by
  induction pre using List.reverseRecOn generalizing post with
  | nil => rfl
  | append_singleton pre h ih =>
    rw [List.append_assoc, List.singleton_append] at linked
    obtain ⟨l, reads, before, -⟩ := linkNeighbours linked
    rw [List.getLast?_concat, List.reverse_concat]
    refine ⟨rfl, pre.getLast?, ?_, ih linked⟩
    rw [prev, reads, Except.map, before]

theorem holdsEmpty : Holds (empty : Chain α) [] [] :=
  ⟨emptyLinked, fun x => by simp [empty], fun x less => absurd less (Nat.not_lt_zero x)⟩

theorem holdsFresh (holds : Holds c hs values) : c.fresh = values.length := by
  have upper := holds.stored values.length
  have lower := holds.stored c.links.size
  rw [List.getElem?_eq_none (Nat.le_refl _), Option.map_eq_none_iff, Array.getElem?_eq_none_iff] at upper
  rw [Array.getElem?_eq_none (Nat.le_refl _), Option.map_none, eq_comm, List.getElem?_eq_none_iff] at lower
  exact Nat.le_antisymm upper lower

theorem holdsMore (holds : Holds c hs values) {d : Chain α} {more : List Handle} {value : α}
    (linked : d.Linked more) (added : ∀ x : Handle, d.links[x]?.map Link.value =
      if x = c.fresh then some value else c.links[x]?.map Link.value)
    (placed : ∀ x ∈ values.length :: hs, x ∈ more) : Holds d more (values ++ [value]) := by
  refine ⟨linked, fun x => ?_, fun x less => ?_⟩
  · rw [added, holdsFresh holds, holds.stored]
    by_cases last : x = values.length
    · rw [if_pos last, last, List.getElem?_concat_length]
    · rw [if_neg last]
      rcases Nat.lt_or_gt_of_ne last with old | beyond
      · rw [List.getElem?_append_left old]
      · rw [List.getElem?_eq_none (Nat.le_of_lt beyond),
          List.getElem?_eq_none (by rw [List.length_append]; exact beyond)]
  · rw [List.length_append, List.length_singleton] at less
    rcases Nat.lt_succ_iff_lt_or_eq.mp less with old | rfl
    · exact placed x (List.mem_cons_of_mem _ (holds.placed x old))
    · exact placed _ List.mem_cons_self

theorem holdsPush (holds : Holds c hs values) (value : α) :
    Holds (c.push value) (hs ++ [values.length]) (values ++ [value]) := by
  have linked := pushLinked holds.linked value
  rw [holdsFresh holds] at linked
  exact holdsMore holds linked (pushValue value) fun x inside => by simpa [or_comm] using inside

theorem holdsInsert (holds : Holds c hs values) (known : h < values.length) (value : α) :
    ∃ d, c.insertBefore (some h) value = .ok d ∧
      Holds d (placeBefore values.length h hs) (values ++ [value]) := by
  obtain ⟨pre, post, rfl⟩ := List.append_of_mem (holds.placed h known)
  have outside : h ∉ pre := fun inside =>
    (List.nodup_append.mp holds.linked.nodup).2.2 h inside h List.mem_cons_self rfl
  obtain ⟨d, made, linked⟩ := insertBeforeLinked holds.linked value
  obtain ⟨_, l, -, -, rfl⟩ := insertedSplice made
  rw [holdsFresh holds] at linked
  rw [placeBeforeAt outside]
  refine ⟨_, made, holdsMore holds linked (spliceValue _ _ _) fun x inside => ?_⟩
  exact List.perm_middle.symm.mem_iff.mp inside

theorem holdsEdit (holds : Holds c hs values) (e : Edit α) (known : ∀ h ∈ e.target, h < values.length) :
    ∃ d, e.apply c = .ok (values.length, d) ∧
      Holds d (e.place values.length hs) (values ++ [e.value]) := by
  cases e with
  | push value =>
    refine ⟨c.push value, ?_, holdsPush holds value⟩
    rw [Edit.apply, holdsFresh holds]
  | insert h value =>
    obtain ⟨d, made, after⟩ := holdsInsert holds (known h rfl) value
    refine ⟨d, ?_, after⟩
    rw [Edit.apply, made, holdsFresh holds]
    rfl

theorem holdsEdits (edits : List (Edit α)) (holds : Holds c hs values)
    (known : ∀ e ∈ edits.zipIdx values.length, ∀ h ∈ e.1.target, h < e.2) :
    ∃ d, c.applyAll edits = .ok (List.range' values.length edits.length, d) ∧
      Holds d (placeAll values.length hs edits) (values ++ edits.map Edit.value) := by
  induction edits generalizing c hs values with
  | nil => exact ⟨c, rfl, by simpa [placeAll] using holds⟩
  | cons e edits ih =>
    rw [List.zipIdx_cons, List.forall_mem_cons] at known
    obtain ⟨d, made, held⟩ := holdsEdit holds e known.1
    have count : (values ++ [e.value]).length = values.length + 1 := List.length_append
    obtain ⟨last, rest, ends⟩ := ih held (by rw [count]; exact known.2)
    refine ⟨last, ?_, ?_⟩
    · rw [applyAll, made]
      simp only [bind, Except.bind, rest, count, List.length_cons, List.range'_succ]
    · rw [count, List.append_assoc] at ends
      exact ends

end

/-- Edits that name only elements made before them always succeed. Each answers the number of edits
before it; the chain they leave spells the list that they make of handles, in both directions, has a
value at every handle that is the one its element was made with, and is valid. -/
theorem editsSpellTheirList (edits : List (Edit α)) (few : edits.length < 4294967295)
    (known : ∀ e ∈ edits.zipIdx, ∀ h ∈ e.1.target, h < e.2) :
    ∃ c : Chain α, (empty : Chain α).applyAll edits = .ok (List.range edits.length, c) ∧
      Meets c.next c.first (placeAll 0 [] edits) ∧
      Meets c.prev c.last (placeAll 0 [] edits).reverse ∧
      c.handles = placeAll 0 [] edits ∧ c.size = (placeAll 0 [] edits).length ∧
      (∀ h e, edits[h]? = some e → c.get (some h) = .ok e.value) ∧
      c.validate = .ok () ∧
      ∀ h < edits.length, Handle.ofNat? h = some h := by
  obtain ⟨c, ran, holds⟩ := holdsEdits edits holdsEmpty known
  obtain ⟨first, last⟩ := linkedEnds holds.linked
  have ahead : c.Linked ([] ++ placeAll 0 [] edits) := holds.linked
  have behind : c.Linked (placeAll 0 [] edits ++ []) := (List.append_nil _).symm ▸ holds.linked
  refine ⟨c, List.range_eq_range' ▸ ran, first ▸ meetsForward ahead, last ▸ meetsBackward behind,
    handlesLinked holds.linked, holds.linked.size, fun h e there => ?_, validateLinked holds.linked,
    fun h less => Handle.ofNatSome (by omega)⟩
  refine getValue ((holds.stored h).trans ?_)
  rw [List.nil_append, List.getElem?_map, there, Option.map_some]

def splices : List (Edit Nat) :=
  -- Before the last element, before the first, and before one that was itself inserted.
  [.push 10, .push 20, .insert 1 30, .insert 0 40, .insert 2 50]

theorem splicesSpellTheirList :
    ∃ c : Chain Nat, (empty : Chain Nat).applyAll splices = .ok ([0, 1, 2, 3, 4], c) ∧
      c.handles = [3, 0, 4, 2, 1] ∧ Meets c.prev c.last [1, 2, 4, 0, 3] ∧
      c.get (some 4) = .ok 50 ∧ c.validate = .ok () := by
  obtain ⟨c, ran, -, backward, handles, -, stored, valid, -⟩ :=
    editsSpellTheirList splices (by decide) (by decide)
  exact ⟨c, ran, handles, backward, stored 4 _ rfl, valid⟩

end Straightline.Chain
