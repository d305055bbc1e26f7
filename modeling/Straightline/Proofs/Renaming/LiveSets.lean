import Mathlib.Data.List.Forall2
import Straightline.Liveness
import Straightline.Proofs.Renaming.Reaching

/-! The open ranges of renaming are the live sets. The backward equations of liveness are those of
the open ranges, so at every position the two have the same registers. Going forward, what the last
slots that name each register say of its next use, and the first reads of the registers not yet
named, give those sets again. -/
namespace Straightline

namespace Liveness

theorem memWrites {i : Instr} {r : Option SourceReg} :
    r ∈ writes i ↔ i.writtenReg .source = some r := by
  simp only [writes, Instr.writtenReg]
  cases i.writtenOperand <;> simp [Operand.reg, eq_comm]

theorem memLiveInto {i : Instr} {after : LiveSet} {r : Option SourceReg} :
    r ∈ liveInto i after ↔ r ∈ i.readRegs .source ∨ r ∈ after ∧ i.writtenReg .source ≠ some r := by
  have erased : r ∈ after.eraseMany (writes i) ↔ r ∈ after ∧ i.writtenReg .source ≠ some r := by
    simp only [writes, Instr.writtenReg]
    cases i.writtenOperand with
    | none => exact ⟨fun inside => ⟨inside, by simp⟩, fun both => both.1⟩
    | some op =>
      have one : after.eraseMany ((some op).toList.map Operand.source) = after.erase op.source := rfl
      rw [one, Std.TreeSet.mem_erase, ne_eq, Std.LawfulEqCmp.compare_eq_iff_eq]
      simp [Operand.reg, and_comm]
  have read : reads i = i.readRegs .source := rfl
  rw [liveInto, Std.TreeSet.mem_insertMany_list, erased, read, List.contains_iff_mem, or_comm]

theorem memAtOrAfter {ps : Positions} {position : Nat} {r : Option SourceReg} :
    r ∈ Outlook.atOrAfter ps position ↔ ∃ q, ps[r]? = some q ∧ position ≤ q := by
  simp only [Outlook.atOrAfter, List.mem_map, List.mem_filter, decide_eq_true_eq]
  constructor
  · intro inside
    obtain ⟨⟨r', q⟩, ⟨listed, late⟩, rfl⟩ := inside
    exact ⟨q, Std.TreeMap.mem_toList_iff_getElem?_eq_some.mp listed, late⟩
  · intro found
    obtain ⟨q, there, late⟩ := found
    exact ⟨(r, q), ⟨Std.TreeMap.mem_toList_iff_getElem?_eq_some.mpr there, late⟩, rfl⟩

theorem insertedAt (rs : List (Option SourceReg)) (ps : Positions) (position : Nat)
    (r : Option SourceReg) : (ps.insertMany (rs.map fun r => (r, position)))[r]? =
      if r ∈ rs then some position else ps[r]? := by
  induction rs generalizing ps with
  | nil => simp
  | cons x xs ih =>
    rw [List.map_cons, Std.TreeMap.insertMany_cons, ih, Renaming.Env.insertGet]
    by_cases later : r ∈ xs
    · simp [later]
    · by_cases here : r = x <;> simp [later, here]

namespace Outlook

variable {o : Outlook} {r : Option SourceReg}

theorem notePending (op : Operand) : (o.note op).pending[r]? =
    if r = op.source then op.nextUse.position? else o.pending[r]? := by
  unfold note
  cases next : op.nextUse.position? with
  | some q => exact Renaming.Env.insertGet o.pending op.source r q
  | none => exact Renaming.Env.eraseGet o.pending op.source r

theorem noteExposed (op : Operand) : (o.note op).exposed[r]? =
    if r = op.source then none else o.exposed[r]? :=
  Renaming.Env.eraseGet o.exposed op.source r

theorem notesElsewhere {ops : List Operand} (elsewhere : ∀ op ∈ ops, op.source ≠ r) :
    (ops.foldl note o).pending[r]? = o.pending[r]? ∧
      (ops.foldl note o).exposed[r]? = o.exposed[r]? := by
  induction ops generalizing o with
  | nil => exact ⟨rfl, rfl⟩
  | cons op ops ih =>
    have other := (elsewhere op List.mem_cons_self).symm
    have rest := ih (o := o.note op) fun op inside => elsewhere op (List.mem_cons_of_mem _ inside)
    rw [notePending, noteExposed, if_neg other, if_neg other] at rest
    exact rest

theorem notesHere {ops : List Operand} {x : Option Nat} (some : ∃ op ∈ ops, op.source = r)
    (same : ∀ op ∈ ops, op.source = r → op.nextUse.position? = x) :
    (ops.foldl note o).pending[r]? = x ∧ (ops.foldl note o).exposed[r]? = none := by
  induction ops generalizing o with
  | nil =>
    obtain ⟨op, inside, -⟩ := some
    contradiction
  | cons op ops ih =>
    rw [List.foldl_cons]
    by_cases later : ∃ op ∈ ops, op.source = r
    · exact ih later fun op inside => same op (List.mem_cons_of_mem _ inside)
    · have elsewhere : ∀ op ∈ ops, op.source ≠ r := fun op inside here => later ⟨op, inside, here⟩
      obtain ⟨op', inside, here⟩ := some
      have last : op.source = r := by
        rcases List.mem_cons.mp inside with first | inside
        · rw [← first, here]
        · exact absurd here (elsewhere op' inside)
      rw [(notesElsewhere elsewhere).1, (notesElsewhere elsewhere).2, notePending, noteExposed,
        if_pos last.symm, if_pos last.symm]
      exact ⟨same op List.mem_cons_self last, rfl⟩

end Outlook
end Liveness

namespace Renaming
open Liveness (LiveSet Outlook Positions)

def Env.Lists (env : Env) (set : LiveSet) : Prop :=
  ∀ r : Option SourceReg, r ∈ set ↔ env.ranges[r]?.isSome

def Env.Seen (env : Env) (o : Outlook) : Prop :=
  ∀ r : Option SourceReg, o.pending[r]? = (env.nextUse r).position? ∧ o.exposed[r]? = none ∨
    o.pending[r]? = none ∧ o.exposed[r]? = (env.nextUse r).position?

section
variable {position : Nat} {below above : Env} {i j : Instr} {es : List (Handle × Instr)}
  {steps : List Step} {r : Option SourceReg}

theorem relabelsReadRegs (relabels : i.Relabels j) : j.readRegs .source = i.readRegs .source := by
  simp only [Instr.readRegs, Instr.readOperands, relabels.opcode, List.map_map]
  exact List.map_congr_left fun slot _ => relabels.source slot

theorem relabelsWrittenReg (relabels : i.Relabels j) :
    j.writtenReg .source = i.writtenReg .source := by
  simp only [Instr.writtenReg, Instr.writtenOperand, relabels.opcode]
  cases i.opcode.writes with
  | none => rfl
  | some slot => exact congrArg some (relabels.source slot)

theorem passesOpen (pass : Passes position below i j above) : above.ranges[r]?.isSome ↔
    r ∈ i.readRegs .source ∨ below.ranges[r]?.isSome ∧ i.writtenReg .source ≠ some r := by
  simp only [Option.isSome_iff_exists]
  constructor
  · intro range
    obtain ⟨v, range⟩ := range
    rcases pass.origin r v range with ⟨old, differ⟩ | ⟨read, -⟩
    · exact .inr ⟨⟨v, old⟩, differ⟩
    · exact .inl read
  · intro found
    rcases found with read | ⟨⟨v, old⟩, differ⟩
    · obtain ⟨slot, inside, rfl⟩ := Instr.memReadRegs.mp read
      obtain ⟨v, -, range, -⟩ := pass.read slot inside
      exact ⟨v, range⟩
    · exact ⟨v, pass.kept r v old differ⟩

theorem listsHead {sets : List LiveSet}
    (lists : List.Forall₂ (fun set (s : Step) => s.env.Lists set) sets steps) :
    (envAbove steps).Lists (sets.head?.getD ∅) := by
  cases lists with
  | nil => intro r; simp [envAbove]
  | cons first _ => exact first

theorem renamesLists (renames : Renames position es steps) :
    List.Forall₂ (fun set (s : Step) => s.env.Lists set)
      (Liveness.liveSets (steps.map Step.instr)) steps := by
  induction renames with
  | nil => exact .nil
  | @cons position h i j env es steps inRange pass rest ih =>
    refine .cons (fun r => ?_) ih
    rw [Liveness.memLiveInto, relabelsReadRegs pass.relabels, relabelsWrittenReg pass.relabels,
      listsHead ih r, passesOpen pass]

theorem listsSize {env : Env} {set : LiveSet} (lists : env.Lists set) :
    set.size = env.ranges.size := by
  have distinct : set.toList.Nodup := by
    refine Std.TreeSet.distinct_toList.imp fun {r s} differ same => differ ?_
    subst same
    exact Std.ReflCmp.compare_self
  have perm : set.toList.Perm env.ranges.keys := by
    refine (List.perm_ext_iff_of_nodup distinct Std.TreeMap.nodup_keys).mpr fun r => ?_
    rw [Std.TreeSet.mem_toList, lists r, Std.TreeMap.mem_keys, Std.TreeMap.mem_iff_isSome_getElem?]
  rw [← Std.TreeSet.length_toList, perm.length_eq, Std.TreeMap.length_keys]

theorem renamesCounts (renames : Renames position es steps) : steps.map (fun s => s.env.live) =
    (Liveness.liveSets (steps.map Step.instr)).map (·.size) := by
  have lists := renamesLists renames
  induction renames with
  | nil => rfl
  | @cons position h i j env es steps inRange pass rest ih =>
    cases lists with
    | cons here later =>
      have size := listsSize here
      simp only [Liveness.liveSets, List.map_cons] at size ⊢
      rw [size, ← ih later, pass.sound.live]

theorem maxCons (x : Nat) (xs : List Nat) : (x :: xs).foldl max 0 = max x (xs.foldl max 0) := by
  rw [List.foldl_cons, Nat.max_comm, List.foldl_assoc]

theorem renamesMaxLive (renames : Renames position es steps) :
    (envAbove steps).maxLive =
      ((Liveness.liveSets (steps.map Step.instr)).map (·.size)).foldl max 0 := by
  have lists := renamesLists renames
  induction renames with
  | nil => rfl
  | @cons position h i j env es steps inRange pass rest ih =>
    cases lists with
    | cons here later =>
      have size := listsSize here
      have below := ih later
      have peak := pass.peak
      simp only [Liveness.liveSets, List.map_cons, maxCons] at below size ⊢
      rw [size, ← below, Nat.max_comm]
      exact peak

theorem passesAdvance (pass : Passes position below i j above) (inRange : position < positionLimit)
    {o : Outlook} (seen : above.Seen o) : below.Seen (o.advance j) := by
  have reads := relabelsReadRegs pass.relabels
  have writes := relabelsWrittenReg pass.relabels
  intro r
  unfold Outlook.advance
  rw [List.foldl_append]
  by_cases written : i.writtenReg .source = some r
  · -- The slot written is noted last, whatever the slots read have said.
    obtain ⟨slot, writes, rfl⟩ := Instr.memWrittenReg.mp written
    obtain ⟨v, -, next, -⟩ := pass.written slot writes
    have only : j.writtenOperand.toList = [j.operand slot] := by
      rw [Instr.writtenOperand, pass.relabels.opcode, writes]
      rfl
    rw [only]
    refine .inl (Outlook.notesHere ⟨_, List.mem_singleton.mpr rfl, pass.relabels.source slot⟩ ?_)
    intro op inside _
    rw [List.mem_singleton.mp inside, next]
    rfl
  · have elsewhere : ∀ op ∈ j.writtenOperand.toList, op.source ≠ r := by
      intro op inside here
      have target : j.writtenReg .source = some op.source := by
        rw [Instr.writtenReg, Option.mem_toList.mp inside]
        rfl
      exact written (by rw [← writes, target, here])
    rw [(Outlook.notesElsewhere elsewhere).1, (Outlook.notesElsewhere elsewhere).2]
    by_cases read : r ∈ i.readRegs .source
    · left
      refine Outlook.notesHere ?_ fun op inside here => ?_
      · rw [← reads] at read
        obtain ⟨op, inside, here⟩ := List.mem_map.mp read
        exact ⟨op, inside, here⟩
      · obtain ⟨slot, listed, rfl⟩ := List.mem_map.mp inside
        rw [pass.relabels.opcode] at listed
        obtain ⟨v, -, -, next⟩ := pass.read slot listed
        rw [pass.relabels.source] at here
        rw [next, here, if_neg written]
    · have away : ∀ op ∈ j.readOperands, op.source ≠ r := by
        intro op inside here
        exact read (reads ▸ List.mem_map.mpr ⟨op, inside, here⟩)
      have same : above.nextUse r = below.nextUse r := by
        rw [Env.nextUseEq, pass.reads inRange, if_neg read, if_neg written, ← Env.nextUseEq]
      rw [(Outlook.notesElsewhere away).1, (Outlook.notesElsewhere away).2, ← same]
      exact seen r

theorem nextUseOpen (renames : Renames position es steps) :
    (∃ q, ((envAbove steps).nextUse r).position? = some q) ↔ (envAbove steps).ranges[r]?.isSome := by
  have marked := renamesMarked renames r
  rw [Option.isSome_iff_ne_none, Ne, ← marked]
  cases (envAbove steps).nextUse r <;> simp [NextUse.position?]

theorem seenLists (renames : Renames position es steps) {o : Outlook} (seen : (envAbove steps).Seen o)
    {j : Instr} (live : ∀ r ∈ j.readRegs .source, (envAbove steps).ranges[r]?.isSome) :
    (envAbove steps).Lists (o.liveInto position j) := by
  intro r
  have late : ∀ q, ((envAbove steps).nextUse r).position? = some q → position ≤ q := by
    intro q next
    obtain ⟨x, rfl, -⟩ := (renamesNextUse renames r q).mp next
    omega
  have noted : ((∃ q, o.pending[r]? = some q ∧ position ≤ q) ∨
      ∃ q, o.exposed[r]? = some q ∧ position ≤ q) ↔ (envAbove steps).ranges[r]?.isSome := by
    rw [← nextUseOpen renames]
    rcases seen r with ⟨pending, exposed⟩ | ⟨pending, exposed⟩ <;> rw [pending, exposed]
    · refine ⟨fun found => ?_, fun found => ?_⟩
      · rcases found with ⟨q, next, -⟩ | ⟨q, none, -⟩
        · exact ⟨q, next⟩
        · contradiction
      · obtain ⟨q, next⟩ := found
        exact .inl ⟨q, next, late q next⟩
    · refine ⟨fun found => ?_, fun found => ?_⟩
      · rcases found with ⟨q, none, -⟩ | ⟨q, next, -⟩
        · contradiction
        · exact ⟨q, next⟩
      · obtain ⟨q, next⟩ := found
        exact .inr ⟨q, next, late q next⟩
  have read : Liveness.reads j = j.readRegs .source := rfl
  rw [Outlook.liveInto, Std.TreeSet.mem_ofList, List.contains_iff_mem, List.mem_append, List.mem_append,
    Liveness.memAtOrAfter, Liveness.memAtOrAfter, noted, read]
  exact ⟨fun found => found.elim id (live r), .inl⟩

theorem renamesAhead (renames : Renames position es steps) {o : Outlook}
    (seen : (envAbove steps).Seen o) :
    List.Forall₂ (fun set (s : Step) => s.env.Lists set)
      (Liveness.liveSetsAhead o position (steps.map Step.instr)) steps := by
  induction renames generalizing o with
  | nil => exact .nil
  | @cons position h i j env es steps inRange pass rest ih =>
    have renames := Renames.cons (h := h) inRange pass rest
    refine .cons (seenLists renames seen fun r read => ?_) (ih (passesAdvance pass inRange seen))
    rw [relabelsReadRegs pass.relabels] at read
    exact (passesOpen pass).mpr (.inl read)

theorem visitExposed {visit : LiveSet × Positions → Instr × Nat → LiveSet × Positions}
    (visits : ∀ seen exposed i position, visit (seen, exposed) (i, position) =
      (seen.insertMany (Liveness.reads i ++ Liveness.writes i), exposed.insertMany
        (((Liveness.reads i).filter fun r => !seen.contains r).map fun r => (r, position))))
    (renames : Renames position es steps) (seen : LiveSet) (exposed : Positions)
    (unseen : r ∉ seen → exposed[r]? = none) :
    (((steps.map Step.instr).zipIdx position).foldl visit (seen, exposed)).2[r]? =
      if r ∈ seen then exposed[r]? else ((envAbove steps).nextUse r).position? := by
  induction renames generalizing seen exposed with
  | nil =>
    by_cases inside : r ∈ seen
    · simp [inside]
    · simp [inside, unseen inside, envAbove, Env.nextUseEq, NextUse.position?]
  | @cons position h i j env es steps inRange pass rest ih =>
    have reads : Liveness.reads j = i.readRegs .source := relabelsReadRegs pass.relabels
    have writes : r ∈ Liveness.writes j ↔ i.writtenReg .source = some r := by
      rw [Liveness.memWrites, relabelsWrittenReg pass.relabels]
    have after : r ∈ seen.insertMany (Liveness.reads j ++ Liveness.writes j) ↔
        r ∈ seen ∨ r ∈ i.readRegs .source ∨ i.writtenReg .source = some r := by
      rw [Std.TreeSet.mem_insertMany_list, List.contains_iff_mem, List.mem_append, reads, writes]
    have inserted := Liveness.insertedAt ((Liveness.reads j).filter fun r => !seen.contains r) exposed
      position r
    simp only [List.mem_filter, reads, Bool.not_eq_true', ← Std.TreeSet.mem_iff_contains,
      Bool.eq_false_iff, Ne] at inserted
    simp only [List.map_cons, List.zipIdx_cons, List.foldl_cons, visits]
    rw [ih, envAboveCons, Env.nextUseEq env, pass.reads inRange r, reads, inserted]
    · rw [reads] at after
      simp only [after]
      by_cases inside : r ∈ seen
      · simp [inside]
      · by_cases read : r ∈ i.readRegs .source
        · simp [inside, read, NextUse.position?]
        · by_cases written : i.writtenReg .source = some r
          · simp [inside, read, written, unseen inside, NextUse.position?]
          · simp [inside, read, written, Env.nextUseEq]
    · intro absent
      obtain ⟨outside, -⟩ := not_or.mp (after.not.mp absent)
      have unread : r ∉ i.readRegs .source := fun read => absent (after.mpr (.inr (.inl read)))
      rw [reads, inserted, if_neg fun found => unread found.1]
      exact unseen outside

theorem seenExposed (renames : Renames 0 es steps) :
    (envAbove steps).Seen {exposed := Liveness.exposedReads (steps.map Step.instr)} := by
  intro r
  refine .inr ⟨by simp, ?_⟩
  unfold Liveness.exposedReads
  refine (visitExposed ?_ renames ∅ ∅ (by simp)).trans (if_neg (by simp))
  exact fun _ _ _ _ => rfl

theorem listsAlike {sets sets' : List LiveSet}
    (lists : List.Forall₂ (fun set (s : Step) => s.env.Lists set) sets steps)
    (lists' : List.Forall₂ (fun set (s : Step) => s.env.Lists set) sets' steps) :
    sets.map (·.toList) = sets'.map (·.toList) := by
  induction lists generalizing sets' with
  | nil =>
    cases lists' with
    | nil => rfl
  | cons here later ih =>
    cases lists' with
    | cons here' later' =>
      have same := Std.TreeSet.Equiv.of_forall_mem_iff fun r => (here r).trans (here' r).symm
      rw [List.map_cons, List.map_cons, same.toList_eq, ih later']

theorem renamesAlike (renames : Renames 0 es steps) :
    (Liveness.liveSetsAhead {exposed := Liveness.exposedReads (steps.map Step.instr)} 0
        (steps.map Step.instr)).map (·.toList) =
      (Liveness.liveSets (steps.map Step.instr)).map (·.toList) :=
  listsAlike (renamesAhead renames (seenExposed renames)) (renamesLists renames)

end
end Renaming
end Straightline
