import Straightline.Chain

/-! The order a chain spells. A path through the links names the handles it meets, and a chain is
linked when one path without repetition leads from its first element to its last through all of
them. Adding at the end, inserting before an element and changing a value keep a chain linked, and
the order they leave is stated on the list of handles. -/
namespace Straightline.Chain

variable {α : Type}

/-- Following the links from `start`, come to from `prev`, meets `hs` in order, and then stands at
`next`, come to from `last`. -/
def Path (links : Array (Link α)) (prev start : Option Handle) :
    List Handle → Option Handle → Option Handle → Prop
  | [], last, next => last = prev ∧ next = start
  | h :: hs, last, next => start = some h ∧ ∃ l, links[h]? = some l ∧ l.before = prev ∧
      Path links (some h) l.after hs last next

structure Linked (c : Chain α) (hs : List Handle) : Prop where
  path : Path c.links none c.first hs c.last none
  nodup : hs.Nodup
  size : c.size = hs.length

theorem pathAppend {links : Array (Link α)} {prev start last next : Option Handle}
    {xs ys : List Handle} :
    Path links prev start (xs ++ ys) last next ↔
      ∃ p n, Path links prev start xs p n ∧ Path links p n ys last next := by
  induction xs generalizing prev start with
  | nil => exact ⟨fun path => ⟨prev, start, ⟨rfl, rfl⟩, path⟩, fun ⟨_, _, ⟨rfl, rfl⟩, path⟩ => path⟩
  | cons x xs ih =>
      simp only [List.cons_append, Path, ih]
      constructor
      · rintro ⟨rfl, l, found, before, p, n, front, back⟩
        exact ⟨p, n, ⟨rfl, l, found, before, front⟩, back⟩
      · rintro ⟨p, n, ⟨rfl, l, found, before, front⟩, back⟩
        exact ⟨rfl, l, found, before, p, n, front, back⟩

theorem pathFrame {links changed : Array (Link α)} {prev start last next : Option Handle}
    {hs : List Handle} (path : Path links prev start hs last next)
    (same : ∀ h ∈ hs, ∀ l, links[h]? = some l →
      ∃ m, changed[h]? = some m ∧ m.before = l.before ∧ m.after = l.after) :
    Path changed prev start hs last next := by
  induction hs generalizing prev start with
  | nil => exact path
  | cons h hs ih =>
      obtain ⟨atStart, l, found, before, rest⟩ := path
      obtain ⟨m, stays, sameBefore, sameAfter⟩ := same h (by simp) l found
      refine ⟨atStart, m, stays, sameBefore.trans before, ?_⟩
      rw [sameAfter]
      exact ih rest fun x inside => same x (by simp [inside])

theorem pathBound {links : Array (Link α)} {prev start last next : Option Handle}
    {hs : List Handle} (path : Path links prev start hs last next) :
    ∀ h ∈ hs, h < links.size := by
  induction hs generalizing prev start with
  | nil => simp
  | cons x xs ih =>
      obtain ⟨-, l, found, -, rest⟩ := path
      intro h inside
      rcases List.mem_cons.mp inside with rfl | inside
      · exact (Array.getElem?_eq_some_iff.mp found).1
      · exact ih rest h inside

theorem pathLast {links : Array (Link α)} {prev start last next : Option Handle}
    {hs : List Handle} (path : Path links prev start hs last next) :
    last = (hs.getLast? <|> prev) := by
  induction hs generalizing prev start with
  | nil => simpa [Path] using path.1
  | cons h hs ih =>
      obtain ⟨-, l, -, -, rest⟩ := path
      rw [ih rest]
      cases hs with
      | nil => rfl
      | cons x xs => simp [List.getLast?_cons]

theorem pathFirst {links : Array (Link α)} {prev start last next : Option Handle}
    {hs : List Handle} (path : Path links prev start hs last next) :
    start = (hs.head? <|> next) := by
  cases hs with
  | nil => exact path.2.symm
  | cons h hs => exact path.1

theorem setAfterGet (links : Array (Link α)) (handle after : Option Handle) (h : Handle) :
    (setAfter links handle after)[h]? =
      links[h]?.map fun l => if handle = some h then {l with after} else l := by
  cases handle with
  | none => simp [setAfter]
  | some p =>
      simp only [setAfter, Array.getElem?_modify, Option.some.injEq]
      split <;> simp_all

theorem setBeforeGet (links : Array (Link α)) (handle before : Option Handle) (h : Handle) :
    (setBefore links handle before)[h]? =
      links[h]?.map fun l => if handle = some h then {l with before} else l := by
  cases handle with
  | none => simp [setBefore]
  | some p =>
      simp only [setBefore, Array.getElem?_modify, Option.some.injEq]
      split <;> simp_all

theorem setAfterSize (links : Array (Link α)) (handle after : Option Handle) :
    (setAfter links handle after).size = links.size := by
  cases handle <;> simp [setAfter]

theorem setBeforeSize (links : Array (Link α)) (handle before : Option Handle) :
    (setBefore links handle before).size = links.size := by
  cases handle <;> simp [setBefore]

theorem pathRetarget {links : Array (Link α)} {prev start last next after : Option Handle}
    {hs : List Handle} (path : Path links prev start hs last next) (nodup : hs.Nodup)
    (nonempty : hs ≠ []) :
    Path (setAfter links last after) prev start hs last after := by
  obtain ⟨front, x, rfl⟩ : ∃ front x, hs = front ++ [x] :=
    ⟨hs.dropLast, hs.getLast nonempty, (List.dropLast_concat_getLast nonempty).symm⟩
  obtain ⟨p, n, lead, atLast⟩ := pathAppend.mp path
  obtain ⟨rfl, l, found, before, rfl, -⟩ := atLast
  refine pathAppend.mpr ⟨p, some x, pathFrame lead ?_, rfl, {l with after}, ?_, before, rfl, rfl⟩
  · intro h inside l found
    have apart : x ≠ h := by
      rintro rfl
      simp [List.nodup_append] at nodup
      exact nodup.2 _ inside rfl
    exact ⟨l, by simp [setAfterGet, found, apart], rfl, rfl⟩
  · simp [setAfterGet, found]

theorem getPush {links : Array (Link α)} {n : Nat} {l : Link α} (atEnd : links.size = n) :
    (links.push l)[n]? = some l := by
  subst atEnd
  simp

theorem emptyLinked : Linked (empty : Chain α) [] := ⟨⟨rfl, rfl⟩, .nil, rfl⟩

theorem modifyLinked {c : Chain α} {hs : List Handle} (linked : Linked c hs) (h : Handle)
    (f : α → α) : Linked (c.modify h f) hs := by
  refine ⟨pathFrame linked.path ?_, linked.nodup, linked.size⟩
  intro x _ l found
  simp only [modify, Array.getElem?_modify, found]
  split <;> simp

theorem pushLinked {c : Chain α} {hs : List Handle} (linked : Linked c hs) (value : α) :
    Linked (c.push value) (hs ++ [c.fresh]) := by
  have bound := pathBound linked.path
  have fresh : c.fresh ∉ hs := fun inside => Nat.lt_irrefl _ (bound _ inside)
  refine ⟨pathAppend.mpr ⟨c.last, some c.fresh, ?_, rfl, ⟨value, c.last, none⟩, ?_, rfl, rfl, rfl⟩,
    ?_, by simp [push, linked.size]⟩
  · by_cases nonempty : hs = []
    · subst nonempty
      obtain ⟨atLast, atFirst⟩ := linked.path
      simp [Path, push, atLast, ← atFirst]
    · obtain ⟨x, xs, rfl⟩ := List.exists_cons_of_ne_nil nonempty
      have start : (c.push value).first = c.first := by simp [push, linked.path.1]
      rw [start]
      refine pathFrame (pathRetarget linked.path linked.nodup nonempty) ?_
      intro h inside l found
      refine ⟨l, ?_, rfl, rfl⟩
      simp only [push, Array.getElem?_push, setAfterSize]
      rw [if_neg (Nat.ne_of_lt (bound h inside)), found]
  · exact getPush (setAfterSize ..)
  · refine List.nodup_append.mpr ⟨linked.nodup, by simp, ?_⟩
    intro x inside y atEnd same
    exact fresh (List.mem_singleton.mp atEnd ▸ same ▸ inside)

theorem linkAt {c : Chain α} {pre post : List Handle} {h : Handle}
    (linked : Linked c (pre ++ h :: post)) :
    ∃ l, c.links[h]? = some l ∧ c.link (some h) = .ok l ∧
      Path c.links none c.first pre l.before (some h) ∧
      Path c.links (some h) l.after post c.last none := by
  obtain ⟨p, n, front, rfl, l, found, rfl, back⟩ := pathAppend.mp linked.path
  exact ⟨l, found, by simp [link, present, found, bind, Except.bind], front, back⟩

theorem linkNeighbours {c : Chain α} {pre post : List Handle} {h : Handle}
    (linked : Linked c (pre ++ h :: post)) :
    ∃ l, c.link (some h) = .ok l ∧ l.before = pre.getLast? ∧ l.after = post.head? := by
  obtain ⟨l, -, reads, lead, tail⟩ := linkAt linked
  exact ⟨l, reads, by simpa using pathLast lead, by simpa using pathFirst tail⟩

theorem linkedEnds {c : Chain α} {hs : List Handle} (linked : Linked c hs) :
    c.first = hs.head? ∧ c.last = hs.getLast? :=
  ⟨by simpa using pathFirst linked.path, by simpa using pathLast linked.path⟩

theorem checkBeforeOk {c : Chain α} {pre post : List Handle} {h : Handle} {l : Link α}
    (linked : Linked c (pre ++ h :: post))
    (lead : Path c.links none c.first pre l.before (some h)) :
    c.checkBefore h l.before = .ok () := by
  by_cases nonempty : pre = []
  · subst nonempty
    obtain ⟨atStart, atFirst⟩ := lead
    simp [checkBefore, atStart, ← atFirst]
  · obtain ⟨front, x, rfl⟩ : ∃ front x, pre = front ++ [x] :=
      ⟨pre.dropLast, pre.getLast nonempty, (List.dropLast_concat_getLast nonempty).symm⟩
    obtain ⟨p, n, -, rfl, m, found, -, atX, after⟩ := pathAppend.mp lead
    simp [atX, checkBefore, link, present, found, bind, Except.bind, ← after]

theorem spliceGet (c : Chain α) (before : Option Handle) (h : Handle) (value : α) {x : Handle}
    (old : x < c.links.size) (apart : h ≠ x) :
    (c.splice before h value).links[x]? = (setAfter c.links before (some c.fresh))[x]? := by
  simp only [splice, Array.getElem?_push, setBeforeSize, setAfterSize]
  rw [if_neg (Nat.ne_of_lt old), setBeforeGet]
  simp [apart]

theorem spliceLead {c : Chain α} {pre post : List Handle} {h : Handle} {before : Option Handle}
    (linked : Linked c (pre ++ h :: post))
    (lead : Path c.links none c.first pre before (some h)) (value : α) :
    Path (c.splice before h value).links none (c.splice before h value).first pre before
      (some c.fresh) := by
  by_cases nonempty : pre = []
  · subst nonempty
    obtain ⟨rfl, -⟩ := lead
    simp [Path, splice]
  · have start : (c.splice before h value).first = c.first := by
      have ends := pathLast lead
      rw [List.getLast?_eq_some_getLast nonempty] at ends
      simp [splice, ends]
    obtain ⟨nodup, -, apart⟩ := List.nodup_append.mp linked.nodup
    rw [start]
    refine pathFrame (pathRetarget lead nodup nonempty) ?_
    intro x inside m found
    refine ⟨m, ?_, rfl, rfl⟩
    rw [spliceGet _ _ _ _ (pathBound lead x inside) (apart x inside h (by simp)).symm, found]

theorem spliceLinked {c : Chain α} {pre post : List Handle} {h : Handle} {l : Link α}
    (linked : Linked c (pre ++ h :: post)) (found : c.links[h]? = some l)
    (lead : Path c.links none c.first pre l.before (some h))
    (tail : Path c.links (some h) l.after post c.last none) (value : α) :
    Linked (c.splice l.before h value) (pre ++ c.fresh :: h :: post) := by
  have bound := pathBound linked.path
  obtain ⟨nodup, nodupBack, apart⟩ := List.nodup_append.mp linked.nodup
  obtain ⟨notBehind, nodupTail⟩ := List.nodup_cons.mp nodupBack
  have ahead : ∀ x, l.before = some x → x ∈ pre := by
    intro x same
    exact List.mem_of_getLast? (by simpa [same] using (pathLast lead).symm)
  have notAhead : l.before ≠ some h := fun same => apart h (ahead h same) h (by simp) rfl
  refine ⟨pathAppend.mpr ⟨l.before, some c.fresh, spliceLead linked lead value, rfl, _,
    getPush (by simp [setBeforeSize, setAfterSize, fresh]), rfl, rfl,
    {l with before := some c.fresh}, ?_, rfl, pathFrame tail ?_⟩, ?_, ?_⟩
  · simp only [splice, Array.getElem?_push, setBeforeSize, setAfterSize]
    rw [if_neg (Nat.ne_of_lt (bound h (by simp))), setBeforeGet, setAfterGet]
    simp [found, notAhead]
  · intro x inside m there
    refine ⟨m, ?_, rfl, rfl⟩
    have elsewhere : l.before ≠ some x := fun same => apart x (ahead x same) x (by simp [inside]) rfl
    rw [spliceGet _ _ _ _ (pathBound tail x inside) fun (same : h = x) => notBehind (same ▸ inside),
      setAfterGet]
    simp [there, elsewhere]
  · have new : ∀ x ∈ pre ++ h :: post, x ≠ c.fresh := fun x inside => Nat.ne_of_lt (bound x inside)
    refine List.nodup_append.mpr ⟨nodup, List.nodup_cons.mpr ⟨fun inside => ?_, nodupBack⟩, ?_⟩
    · exact new _ (List.mem_append_right _ inside) rfl
    · intro x front y back
      rcases List.mem_cons.mp back with rfl | back
      · exact new x (List.mem_append_left _ front)
      · exact apart x front y back
  · simp [splice, linked.size]
    omega

theorem insertBeforeLinked {c : Chain α} {pre post : List Handle} {h : Handle}
    (linked : Linked c (pre ++ h :: post)) (value : α) :
    ∃ d, c.insertBefore (some h) value = .ok d ∧ Linked d (pre ++ c.fresh :: h :: post) := by
  obtain ⟨l, found, reads, lead, tail⟩ := linkAt linked
  refine ⟨c.splice l.before h value, ?_, spliceLinked linked found lead tail value⟩
  simp [insertBefore, present, reads, checkBeforeOk linked lead, bind, Except.bind]

theorem walkPath {c : Chain α} {prev start last : Option Handle} {hs : List Handle}
    (path : Path c.links prev start hs last none) : c.walk hs.length start = hs := by
  induction hs generalizing prev start with
  | nil => simp [walk]
  | cons h hs ih =>
      obtain ⟨rfl, l, found, -, rest⟩ := path
      simp [walk, found, ih rest]

theorem handlesLinked {c : Chain α} {hs : List Handle} (linked : Linked c hs) : c.handles = hs := by
  rw [handles, linked.size, walkPath linked.path]

theorem trailPath {c : Chain α} {prev start last : Option Handle} {hs : List Handle}
    (path : Path c.links prev start hs last none) (nodup : hs.Nodup) (n : Nat)
    (enough : hs.length ≤ n) (seen : Std.TreeSet Handle) (unseen : ∀ h ∈ hs, h ∉ seen) :
    c.trail n seen prev start = .ok (last, seen.size + hs.length) := by
  induction hs generalizing prev start n seen with
  | nil =>
      obtain ⟨rfl, rfl⟩ := path
      simp [trail]
  | cons h hs ih =>
      obtain ⟨rfl, l, found, before, rest⟩ := path
      obtain ⟨apart, nodup⟩ := List.nodup_cons.mp nodup
      obtain ⟨n, rfl⟩ : ∃ m, n = m + 1 := ⟨n - 1, by simp at enough; omega⟩
      have new : h ∉ seen := unseen h (by simp)
      have later : ∀ x ∈ hs, x ∉ seen.insert h := by
        intro x inside
        have differ : h ≠ x := fun same => apart (same ▸ inside)
        simp [Std.TreeSet.mem_insert, differ, unseen x (by simp [inside])]
      have counted := ih rest nodup n (by simpa using enough) (seen.insert h) later
      simp only [trail, ← Std.TreeSet.mem_iff_contains, new, link, present, found, before, bind,
        Except.bind, counted]
      simp [Std.TreeSet.size_insert, new]
      omega

theorem nodupLength {hs : List Handle} {n : Nat} (nodup : hs.Nodup) (bound : ∀ h ∈ hs, h < n) :
    hs.length ≤ n := by
  induction n generalizing hs with
  | zero => cases hs with
    | nil => simp
    | cons h hs => exact absurd (bound h (by simp)) (Nat.not_lt_zero h)
  | succ n ih =>
      have below : ∀ h ∈ hs.erase n, h < n := by
        intro h inside
        obtain ⟨differ, inside⟩ := nodup.mem_erase_iff.mp inside
        exact Nat.lt_of_le_of_ne (Nat.le_of_lt_succ (bound h inside)) differ
      have shorter := ih (nodup.erase n) below
      rw [List.length_erase] at shorter
      split at shorter <;> omega

theorem validateLinked {c : Chain α} {hs : List Handle} (linked : Linked c hs) :
    c.validate = .ok () := by
  have short : hs.length ≤ c.links.size + 1 :=
    Nat.le_succ_of_le (nodupLength linked.nodup (pathBound linked.path))
  have followed := trailPath linked.path linked.nodup (c.links.size + 1) short ∅ (by simp)
  simp [validate, followed, bind, Except.bind, linked.size, pure, Except.pure]

end Straightline.Chain
