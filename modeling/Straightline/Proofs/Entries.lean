import Mathlib.Data.List.Nodup
import Straightline.Chain.Path

/-! The entries a chain spells. A chain spells a list of entries when its links lead through their
handles in order and each handle has its value. Inserting, changing a value and assigning values are
stated on that list, so what is done to a block can be followed without its links. -/
namespace Straightline

theorem Handle.ofNatSome {h : Nat} (less : h < 4294967295) : Handle.ofNat? h = some h := by
  have low : h % 4294967296 = h := Nat.mod_eq_of_lt (by omega)
  rw [ofNat?, low]
  exact if_neg (by omega)

namespace Chain

variable {α : Type} {c : Chain α}

structure Spells (c : Chain α) (es : List (Handle × α)) : Prop where
  linked : c.Linked (es.map Prod.fst)
  values : ∀ e ∈ es, c.links[e.1]?.map Link.value = some e.2

def Sound (c : Chain α) : Prop := c.Linked c.handles

theorem spellsEntries {es : List (Handle × α)} (spells : c.Spells es) : c.entries = es := by
  have found : ∀ e ∈ es, (c.links[e.1]?.map fun l => (e.1, l.value)) = some e := by
    intro e inside
    have value := spells.values e inside
    cases link : c.links[e.1]? with
    | none => simp [link] at value
    | some l =>
      simp only [link, Option.map_some, Option.some.injEq] at value ⊢
      rw [value]
  rw [entries, handlesLinked spells.linked, List.filterMap_map]
  calc es.filterMap _ = es.filterMap some := List.filterMap_congr found
    _ = es := List.filterMap_some

theorem spellsHandles {es : List (Handle × α)} (spells : c.Spells es) :
    c.handles = es.map Prod.fst := handlesLinked spells.linked

theorem entriesAt {es : List (Handle × α)} (spells : c.Spells es) {n : Nat} {h : Handle}
    (here : c.handles[n]? = some h) :
    ∃ pre x post, c.entries = pre ++ (h, x) :: post ∧ pre.length = n := by
  rw [spellsHandles spells, List.getElem?_map, Option.map_eq_some_iff] at here
  obtain ⟨⟨h, x⟩, entry, rfl⟩ := here
  obtain ⟨less, entry⟩ := List.getElem?_eq_some_iff.mp entry
  refine ⟨es.take n, x, es.drop (n + 1), ?_, by simp [Nat.le_of_lt less]⟩
  rw [spellsEntries spells, ← entry, List.getElem_cons_drop, List.take_append_drop]

theorem spellsSize {es : List (Handle × α)} (spells : c.Spells es) : c.size = es.length := by
  rw [spells.linked.size, List.length_map]

theorem spellsValues {es : List (Handle × α)} (spells : c.Spells es) : c.values = es.map Prod.snd := by
  rw [values, spellsEntries spells]

theorem soundSpells (sound : c.Sound) : c.Spells c.entries := by
  have bound := pathBound sound.path
  have handles : c.entries.map Prod.fst = c.handles := by
    rw [entries, List.map_filterMap]
    calc c.handles.filterMap _ = c.handles.filterMap some := by
          refine List.filterMap_congr fun h inside => ?_
          obtain ⟨l, link⟩ : ∃ l, c.links[h]? = some l := ⟨_, Array.getElem?_eq_getElem (bound h inside)⟩
          simp [link]
      _ = c.handles := List.filterMap_some
  refine ⟨by rw [handles]; exact sound, ?_⟩
  intro e inside
  obtain ⟨h, -, found⟩ := List.mem_filterMap.mp inside
  obtain ⟨l, link, rfl⟩ := Option.map_eq_some_iff.mp found
  simp [link]

theorem soundLength (sound : c.Sound) : c.values.length = c.size := by
  rw [values, List.length_map, spellsSize (soundSpells sound)]

theorem spellsSound {es : List (Handle × α)} (spells : c.Spells es) : c.Sound := by
  rw [Sound, spellsHandles spells]
  exact spells.linked

theorem spellsValidate {es : List (Handle × α)} (spells : c.Spells es) : c.validate = .ok () :=
  validateLinked spells.linked

theorem getValue {h : Handle} {x : α} (value : c.links[h]?.map Link.value = some x) :
    c.get (some h) = .ok x := by
  obtain ⟨l, link, same⟩ := Option.map_eq_some_iff.mp value
  simp only [get, Chain.link, present, link, bind, Except.bind, Except.map]
  rw [same]

theorem getSpells {pre post : List (Handle × α)} {h : Handle} {x : α}
    (spells : c.Spells (pre ++ (h, x) :: post)) : c.get (some h) = .ok x :=
  getValue (spells.values (h, x) (by simp))

theorem modifyValue (h : Handle) (f : α → α) (x : Handle) :
    (c.modify h f).links[x]?.map Link.value =
      (c.links[x]?.map Link.value).map fun y => if h = x then f y else y := by
  simp only [modify, Array.getElem?_modify]
  cases c.links[x]? with
  | none => simp
  | some l => by_cases same : h = x <;> simp [same]

theorem modifySpells {pre post : List (Handle × α)} {h : Handle} {x : α} (f : α → α)
    (spells : c.Spells (pre ++ (h, x) :: post)) :
    (c.modify h f).Spells (pre ++ (h, f x) :: post) := by
  have linked := spells.linked
  simp only [List.map_append, List.map_cons] at linked
  have apart : ∀ e ∈ pre ++ post, h ≠ e.1 := by
    have nodup := List.nodup_middle.mp linked.nodup
    rw [← List.map_append] at nodup
    intro e inside same
    exact (List.nodup_cons.mp nodup).1 (List.mem_map.mpr ⟨e, inside, same.symm⟩)
  refine ⟨by simpa using modifyLinked linked h f, ?_⟩
  intro e inside
  rw [modifyValue]
  have others : e ∈ pre ++ post → (c.links[e.1]?.map Link.value).map
      (fun y => if h = e.1 then f y else y) = some e.2 := by
    intro other
    have kept := spells.values e (by
      rcases List.mem_append.mp other with front | back
      · exact List.mem_append_left _ front
      · exact List.mem_append_right _ (List.mem_cons_of_mem _ back))
    simp [kept, apart e other]
  rcases List.mem_append.mp inside with front | back
  · exact others (List.mem_append_left _ front)
  · rcases List.mem_cons.mp back with rfl | back
    · simp [spells.values (h, x) (by simp)]
    · exact others (List.mem_append_right _ back)

theorem assignSpells (c : Chain α) (done : List (Handle × α)) {rest news : List (Handle × α)}
    (handles : news.map Prod.fst = rest.map Prod.fst) (spells : c.Spells (done ++ rest)) :
    (c.assign news).Spells (done ++ news) := by
  induction news generalizing c done rest with
  | nil =>
    obtain rfl : rest = [] := by simpa using handles.symm
    exact spells
  | cons e news ih =>
    cases rest with
    | nil => simp at handles
    | cons d rest =>
      obtain ⟨h, x⟩ := d
      obtain ⟨first, others⟩ := List.cons.inj handles
      have changed := modifySpells (fun _ => e.2) spells
      have next := ih (c.modify h fun _ => e.2) (done ++ [(h, e.2)]) others (by simpa using changed)
      simp only at first
      subst first
      simpa [assign] using next

theorem spliceValue (before : Option Handle) (h : Handle) (value : α) (x : Handle) :
    (c.splice before h value).links[x]?.map Link.value =
      if x = c.fresh then some value else c.links[x]?.map Link.value := by
  simp only [splice, Array.getElem?_push, setBeforeSize, setAfterSize]
  by_cases new : x = c.fresh
  · rw [if_pos new, if_pos (show x = c.links.size from new), Option.map_some]
  · rw [if_neg new, if_neg (show ¬ x = c.links.size from new), setBeforeGet, setAfterGet]
    cases c.links[x]? with
    | none => rfl
    | some l =>
      simp only [Option.map_some]
      split <;> split <;> rfl

theorem insertedSplice {d : Chain α} {handle : Option Handle} {value : α}
    (made : c.insertBefore handle value = .ok d) :
    ∃ h l, handle = some h ∧ c.links[h]? = some l ∧ d = c.splice l.before h value := by
  cases handle with
  | none => simp [insertBefore, present, bind, Except.bind] at made
  | some h =>
    cases link : c.links[h]? with
    | none => simp [insertBefore, Chain.link, present, link, bind, Except.bind] at made
    | some l =>
      cases checked : c.checkBefore h l.before with
      | error f => simp [insertBefore, Chain.link, present, link, bind, Except.bind, checked] at made
      | ok _ =>
        simp only [insertBefore, Chain.link, present, link, bind, Except.bind, checked,
          Except.ok.injEq] at made
        exact ⟨h, l, rfl, link, made.symm⟩

theorem insertSpells {pre post : List (Handle × α)} {h : Handle} {x : α}
    (spells : c.Spells (pre ++ (h, x) :: post)) (value : α) :
    ∃ d, c.insertBefore (some h) value = .ok d ∧
      d.Spells (pre ++ (c.fresh, value) :: (h, x) :: post) := by
  have linked := spells.linked
  simp only [List.map_append, List.map_cons] at linked
  obtain ⟨d, made, inserted⟩ := insertBeforeLinked linked value
  obtain ⟨_, l, -, -, rfl⟩ := insertedSplice made
  refine ⟨_, made, by simpa using inserted, ?_⟩
  have old : ∀ e ∈ pre ++ (h, x) :: post, e.1 ≠ c.fresh := fun e inside =>
    Nat.ne_of_lt (pathBound spells.linked.path e.1 (List.mem_map_of_mem inside))
  intro e inside
  rw [spliceValue]
  rcases List.mem_append.mp inside with front | back
  · have before : e ∈ pre ++ (h, x) :: post := List.mem_append_left _ front
    rw [if_neg (old e before), spells.values e before]
  · rcases List.mem_cons.mp back with rfl | back
    · simp
    · have behind : e ∈ pre ++ (h, x) :: post := List.mem_append_right _ back
      rw [if_neg (old e behind), spells.values e behind]

theorem emptySpells : (empty : Chain α).Spells [] := ⟨emptyLinked, by simp⟩

theorem pushValue (value : α) (x : Handle) :
    (c.push value).links[x]?.map Link.value =
      if x = c.fresh then some value else c.links[x]?.map Link.value := by
  simp only [push, Array.getElem?_push, setAfterSize]
  by_cases new : x = c.fresh
  · rw [if_pos new, if_pos (show x = c.links.size from new), Option.map_some]
  · rw [if_neg new, if_neg (show ¬ x = c.links.size from new), setAfterGet]
    cases c.links[x]? with
    | none => rfl
    | some l =>
      simp only [Option.map_some]
      split <;> rfl

theorem pushSpells {es : List (Handle × α)} (spells : c.Spells es) (value : α) :
    (c.push value).Spells (es ++ [(c.fresh, value)]) := by
  refine ⟨by simpa using pushLinked spells.linked value, ?_⟩
  intro e inside
  rw [pushValue]
  rcases List.mem_append.mp inside with old | new
  · have below := pathBound spells.linked.path e.1 (List.mem_map_of_mem old)
    rw [if_neg (show e.1 ≠ c.fresh from Nat.ne_of_lt below), spells.values e old]
  · obtain rfl := List.mem_singleton.mp new
    rw [if_pos rfl]

structure Whole (c : Chain α) : Prop where
  sound : c.Sound
  full : c.size = c.links.size

theorem wholeEmpty : (empty : Chain α).Whole := ⟨spellsSound emptySpells, rfl⟩

theorem wholePush (whole : c.Whole) (value : α) : (c.push value).Whole := by
  refine ⟨spellsSound (pushSpells (soundSpells whole.sound) value), ?_⟩
  simp [Chain.push, setAfterSize, whole.full]

theorem wholeInsert {d : Chain α} {handle : Option Handle} {value : α} (whole : c.Whole)
    (made : c.insertBefore handle value = .ok d) : d.Whole := by
  obtain ⟨sound, full⟩ := whole
  obtain ⟨h, l, rfl, link, same⟩ := insertedSplice made
  have inside : h ∈ c.handles := by
    by_contra outside
    have more := nodupLength (List.nodup_cons.mpr ⟨outside, sound.nodup⟩) (n := c.links.size) (by
      intro x listed
      rcases List.mem_cons.mp listed with rfl | listed
      · exact (Array.getElem?_eq_some_iff.mp link).1
      · exact pathBound sound.path x listed)
    have length := sound.size
    simp only [List.length_cons] at more
    omega
  have spells := soundSpells sound
  rw [spellsHandles spells] at inside
  obtain ⟨⟨h, x⟩, listed, rfl⟩ := List.mem_map.mp inside
  obtain ⟨pre, post, split⟩ := List.append_of_mem listed
  rw [split] at spells
  obtain ⟨d', made', spelled⟩ := insertSpells spells value
  obtain rfl := Except.ok.inj (made.symm.trans made')
  refine ⟨spellsSound spelled, ?_⟩
  rw [same]
  simp [splice, setBeforeSize, setAfterSize, full]

theorem wholeModify (whole : c.Whole) (h : Handle) (f : α → α) : (c.modify h f).Whole := by
  have linked : (c.modify h f).Linked c.handles := modifyLinked whole.sound h f
  refine ⟨?_, ?_⟩
  · rw [Sound, handlesLinked linked]
    exact linked
  · simp [modify, whole.full]

theorem wholeAssign (whole : c.Whole) (es : List (Handle × α)) : (c.assign es).Whole := by
  induction es generalizing c with
  | nil => exact whole
  | cons e es ih => exact ih (wholeModify whole e.1 _)

inductive Built : Chain α → Prop where
  | empty : Built empty
  | push {c : Chain α} (built : Built c) (value : α) : Built (c.push value)
  | insert {c d : Chain α} {handle : Option Handle} {value : α} (built : Built c)
      (made : c.insertBefore handle value = .ok d) : Built d

inductive Altered : Chain α → Prop where
  | empty : Altered empty
  | push {c : Chain α} (altered : Altered c) (value : α) : Altered (c.push value)
  | insert {c d : Chain α} {handle : Option Handle} {value : α} (altered : Altered c)
      (made : c.insertBefore handle value = .ok d) : Altered d
  | change {c : Chain α} (altered : Altered c) (h : Handle) (f : α → α) : Altered (c.modify h f)

theorem alteredWhole (altered : c.Altered) : c.Whole := by
  induction altered with
  | empty => exact wholeEmpty
  | push _ value ih => exact wholePush ih value
  | insert _ made ih => exact wholeInsert ih made
  | change _ h f ih => exact wholeModify ih h f

theorem builtAltered (built : c.Built) : c.Altered := by
  induction built with
  | empty => exact .empty
  | push _ value ih => exact .push ih value
  | insert _ made ih => exact .insert ih made

theorem builtSound (built : c.Built) : c.Sound ∧ c.size = c.links.size :=
  have whole := alteredWhole (builtAltered built)
  ⟨whole.sound, whole.full⟩

theorem ofListBuilt (values : List α) : (ofList values).Built := by
  have fold : ∀ (c : Chain α), c.Built → (values.foldl Chain.push c).Built := by
    induction values with
    | nil => exact fun c built => built
    | cons x xs ih => exact fun c built => ih _ (.push built x)
  exact fold _ .empty

theorem ofListSound (values : List α) : (ofList values).Sound := (builtSound (ofListBuilt values)).1

theorem ofListValues (values : List α) : (ofList values).values = values := by
  have fold : ∀ (c : Chain α), c.Sound → (values.foldl Chain.push c).values = c.values ++ values := by
    induction values with
    | nil => exact fun c _ => (List.append_nil _).symm
    | cons x xs ih =>
      intro c sound
      have pushed := pushSpells (soundSpells sound) x
      rw [List.foldl_cons, ih _ (spellsSound pushed), Chain.values, spellsEntries pushed]
      simp [Chain.values]
  have nothing : (empty : Chain α).values = [] := by rw [Chain.values, spellsEntries emptySpells]; rfl
  rw [ofList, fold empty (spellsSound emptySpells), nothing, List.nil_append]

end Chain
end Straightline
