import Mathlib.Data.List.Nodup
import Straightline.Check
import Straightline.Proofs.Machine

/-! What the checker accepts. Each kind of instruction is accepted under a stated condition on the
symbols and leaves a stated state, and a block is accepted when its instructions are, one after the
other. A block without errors is an accepted one. -/
namespace Straightline.Check

namespace State

theorem contentWrite (s : State) (p q : PhysicalReg) (x : Content) :
    (s.write p x).content q = if q = p then x else s.content q := by
  have indices : p.index.val = q.index.val ↔ q = p := by
    refine ⟨fun equal => Reg.numberInjective equal.symm, ?_⟩
    rintro rfl
    rfl
  have get (xs : Vector Content 64) : xs.get q.index = xs[q.index.val] := rfl
  simp only [content, write, Reg.number, get, Vector.getElem_set, indices]

theorem contentStore (s : State) (a : Word) (x : Content) (p : PhysicalReg) :
    (s.store a x).content p = s.content p := rfl

theorem memoryWrite (s : State) (p : PhysicalReg) (x : Content) :
    (s.write p x).memory = s.memory := rfl

theorem loadWrite (s : State) (p : PhysicalReg) (x : Content) (a : Word) :
    (s.write p x).load a = s.load a := rfl

theorem loadStore (s : State) (a b : Word) (x : Content) :
    (s.store a x).load b = if a = b then x else s.load b := by
  simp [load, store, Std.TreeMap.getD_insert]

theorem memStore (s : State) (a b : Word) (x : Content) :
    b ∈ (s.store a x).memory ↔ a = b ∨ b ∈ s.memory := by
  simp [store, Std.TreeMap.mem_insert]

end State

theorem forMOk {α ε : Type} {g : α → Except ε Unit} {xs : List α} {u : Unit} :
    xs.forM g = .ok u ↔ ∀ x ∈ xs, g x = .ok () := by
  induction xs with
  | nil => simp [pure, Except.pure]
  | cons x xs ih =>
    simp only [List.forM_eq_forM, List.forM_cons, List.forall_mem_cons, bindOk] at ih ⊢
    exact ⟨fun ⟨_, first, rest⟩ => ⟨first, ih.mp rest⟩, fun ⟨first, rest⟩ => ⟨(), first, ih.mpr rest⟩⟩

namespace Frame

variable {f : Frame} {s t u : State} {h : Handle} {i : Instr} {slot : Slot} {p : PhysicalReg}

theorem registerOk {limit : Nat} :
    f.register limit h i slot = .ok p ↔ (i.operand slot).physical = some p ∧
      (i.inserted = false → f.address ≠ some p) ∧ p.number < limit := by
  unfold register
  cases (i.operand slot).physical with
  | none => simp
  | some q =>
    simp only [Bool.and_eq_true, Bool.not_eq_true', decide_eq_true_eq, Option.some.injEq]
    constructor
    · intro ok
      split at ok
      · contradiction
      · rename_i address
        split at ok
        · cases ok
          exact ⟨rfl, fun given same => address ⟨given, same⟩, by assumption⟩
        · contradiction
    · rintro ⟨rfl, address, below⟩
      rw [if_neg (fun both => address both.1 both.2), if_pos below]

def Placed (f : Frame) (i : Instr) (slot : Slot) (p : PhysicalReg) : Prop :=
  (i.operand slot).physical = some p ∧ f.address ≠ some p ∧ p.number < f.usable

theorem placedOk (given : i.inserted = false) :
    f.register f.usable h i slot = .ok p ↔ f.Placed i slot p := by
  simp only [registerOk, given, forall_const, Placed]

def Carries (f : Frame) (x : Content) (v : Option VirtualReg) : Prop :=
  v ∈ f.defined → f.holds x v = true

theorem checkReadOk (given : i.inserted = false) :
    f.checkRead s h i slot = .ok () ↔
      ∃ p, f.Placed i slot p ∧ f.Carries (s.content p) (i.operand slot).virtual := by
  unfold checkRead
  simp only [bindOk, placedOk given, Carries, Std.TreeSet.mem_iff_contains]
  refine exists_congr fun p => and_congr_right fun _ => ?_
  cases f.defined.contains (i.operand slot).virtual <;>
    cases f.holds (s.content p) (i.operand slot).virtual <;> simp [pure, Except.pure]

structure Given (f : Frame) (s : State) (i : Instr) (t : State) : Prop where
  reads : ∀ slot ∈ i.opcode.reads,
    ∃ p, f.Placed i slot p ∧ f.Carries (s.content p) (i.operand slot).virtual
  written : ∀ slot, i.opcode.writes = some slot →
    ∃ p, f.Placed i slot p ∧ t = s.write p (.value (i.operand slot).virtual)
  unwritten : i.opcode.writes = none → t = s

theorem runGivenOk (given : i.inserted = false) : f.run s h i = .ok t ↔ f.Given s i t := by
  simp only [run, given, Bool.false_eq_true, if_false, runGiven, bindOk, forMOk, checkReadOk given]
  constructor
  · rintro ⟨-, reads, target⟩
    refine ⟨reads, ?_, ?_⟩
    · intro slot writes
      simp only [writes, bindOk, placedOk given, Except.ok.injEq] at target
      obtain ⟨p, placed, rfl⟩ := target
      exact ⟨p, placed, rfl⟩
    · intro writes
      simp only [writes, Except.ok.injEq] at target
      exact target.symm
  · intro accepted
    refine ⟨(), accepted.reads, ?_⟩
    cases writes : i.opcode.writes with
    | none => simp only [accepted.unwritten writes]
    | some slot =>
      obtain ⟨p, placed, rfl⟩ := accepted.written slot writes
      exact bindOk.mpr ⟨p, (placedOk given).mpr placed, rfl⟩

theorem spillAddressOk {a : Word} (inserted : i.inserted = true) :
    f.spillAddress s h i slot = .ok a ↔ ∃ p, (i.operand slot).physical = some p ∧
      p.number < f.numRegisters ∧ f.address = some p ∧ s.content p = .constant a := by
  unfold spillAddress
  simp only [bindOk, registerOk, inserted, Bool.true_eq_false, false_implies, true_and, and_assoc]
  refine exists_congr fun p => and_congr_right fun _ => and_congr_right fun _ => ?_
  cases s.content p with
  | unknown => simp
  | value v => simp
  | constant c => by_cases address : f.address = some p <;> simp [address]

inductive Inserted (f : Frame) (s : State) (i : Instr) : State → Prop where
  | constant {p : PhysicalReg} (opcode : i.opcode = .loadI) (target : i.third.physical = some p)
      (below : p.number < f.numRegisters) : Inserted f s i (s.write p (.constant i.constant))
  | load {p q : PhysicalReg} {a : Word} (opcode : i.opcode = .load) (source : i.first.physical = some q)
      (bounded : q.number < f.numRegisters) (address : f.address = some q)
      (content : s.content q = .constant a) (target : i.third.physical = some p)
      (below : p.number < f.numRegisters) : Inserted f s i (s.write p (s.load a))
  | store {p q : PhysicalReg} {a : Word} (opcode : i.opcode = .store) (source : i.first.physical = some p)
      (below : p.number < f.numRegisters) (target : i.third.physical = some q)
      (bounded : q.number < f.numRegisters) (address : f.address = some q)
      (content : s.content q = .constant a) : Inserted f s i (s.store a (s.content p))

theorem insertedOfRun (inserted : i.inserted = true) (ok : f.run s h i = .ok t) :
    f.Inserted s i t := by
  simp only [run, inserted, if_true, runInserted] at ok
  cases opcode : i.opcode <;>
    simp only [opcode, bindOk, registerOk, spillAddressOk inserted, inserted, Bool.true_eq_false,
      false_implies, true_and, Except.ok.injEq, reduceCtorEq] at ok
  case loadI =>
    obtain ⟨p, ⟨target, below⟩, rfl⟩ := ok
    exact .constant opcode target below
  case load =>
    obtain ⟨a, ⟨q, source, bounded, address, content⟩, p, ⟨target, below⟩, rfl⟩ := ok
    exact .load opcode source bounded address content target below
  case store =>
    obtain ⟨p, ⟨source, below⟩, a, ⟨q, target, bounded, address, content⟩, rfl⟩ := ok
    exact .store opcode source below target bounded address content

theorem runOfInserted (inserted : i.inserted = true) (accepted : f.Inserted s i t) :
    f.run s h i = .ok t := by
  simp only [run, inserted, if_true, runInserted]
  cases accepted with
  | constant opcode target below =>
    simp only [opcode, bindOk, registerOk, inserted, Bool.true_eq_false, false_implies, true_and]
    exact ⟨_, ⟨target, below⟩, rfl⟩
  | load opcode source bounded address content target below =>
    simp only [opcode, bindOk, registerOk, spillAddressOk inserted, inserted, Bool.true_eq_false,
      false_implies, true_and]
    exact ⟨_, ⟨_, source, bounded, address, content⟩, _, ⟨target, below⟩, rfl⟩
  | store opcode source below target bounded address content =>
    simp only [opcode, bindOk, registerOk, spillAddressOk inserted, inserted, Bool.true_eq_false,
      false_implies, true_and]
    exact ⟨_, ⟨source, below⟩, _, ⟨_, target, bounded, address, content⟩, rfl⟩

inductive Accepts (f : Frame) : State → List (Handle × Instr) → State → Prop where
  | nil (s : State) : Accepts f s [] s
  | cons {s t u : State} {h : Handle} {i : Instr} {es : List (Handle × Instr)}
      (first : f.run s h i = .ok t) (rest : Accepts f t es u) : Accepts f s ((h, i) :: es) u

theorem acceptsErrors {es : List (Handle × Instr)} :
    f.errors s es = [] ↔ ∃ t, f.Accepts s es t := by
  induction es generalizing s with
  | nil => exact ⟨fun _ => ⟨s, .nil s⟩, fun _ => rfl⟩
  | cons e es ih =>
    obtain ⟨h, i⟩ := e
    simp only [errors]
    cases first : f.run s h i with
    | error problem =>
      refine ⟨fun clean => by simp at clean, ?_⟩
      rintro ⟨t, accepted⟩
      cases accepted with
      | cons ok rest => simp [first] at ok
    | ok t =>
      simp only [ih]
      constructor
      · rintro ⟨u, rest⟩
        exact ⟨u, .cons first rest⟩
      · rintro ⟨u, accepted⟩
        cases accepted with
        | cons ok rest =>
          rw [Except.ok.inj (first.symm.trans ok)]
          exact ⟨u, rest⟩

theorem acceptsAppend {es ds : List (Handle × Instr)} (first : f.Accepts s es t)
    (rest : f.Accepts t ds u) : f.Accepts s (es ++ ds) u := by
  induction first with
  | nil => exact rest
  | cons ok _ ih => exact .cons ok (ih rest)

structure Describes (f : Frame) (is : List Instr) : Prop where
  defined : ∀ v, v ∈ f.defined ↔ v ∈ writtenRegs .virtual is
  constants : ∀ i ∈ is, ∀ v ∈ i.writtenReg .virtual,
    f.constants[v]? = if i.opcode = .loadI then some i.constant else none

theorem memWrites {is : List Instr} {v : Option VirtualReg} {i : Instr} :
    (v, i) ∈ is.filterMap (fun i => i.writtenOperand.map fun op => (op.virtual, i)) ↔
      i ∈ is ∧ v ∈ i.writtenReg .virtual := by
  simp only [List.mem_filterMap, Option.map_eq_some_iff, Instr.writtenReg, Option.mem_def,
    Prod.mk.injEq]
  constructor
  · rintro ⟨j, inside, op, written, rfl, rfl⟩
    exact ⟨inside, op, written, rfl⟩
  · rintro ⟨inside, op, written, same⟩
    exact ⟨i, inside, op, written, same, rfl⟩

theorem ofBlockDescribes {b : Block} (usable : Nat) (address : Option PhysicalReg)
    (single : (writtenRegs .virtual b.given).Nodup) :
    (Frame.ofBlock b usable address).Describes b.given := by
  have firsts : (b.given.filterMap fun i => i.writtenOperand.map fun op => (op.virtual, i)).map
      Prod.fst = writtenRegs .virtual b.given := by
    simp only [List.map_filterMap, writtenRegs, Option.map_map]
    rfl
  refine ⟨?_, ?_⟩
  · intro v
    simp only [ofBlock, Std.TreeSet.mem_ofList, firsts, List.contains_iff_mem]
  · intro i inside v written
    have member := memWrites.mpr ⟨inside, written⟩
    rw [← firsts] at single
    by_cases opcode : i.opcode = .loadI
    · rw [if_pos opcode]
      refine Std.TreeMap.getElem?_ofList_of_mem Std.ReflCmp.compare_self ?_ ?_
      · simp only [List.pairwise_map, Std.LawfulEqCmp.compare_eq_iff_eq]
        refine List.Pairwise.filter _ ?_
        exact List.pairwise_map.mp single
      · exact List.mem_map.mpr ⟨(v, i), List.mem_filter.mpr ⟨member, by simp [opcode]⟩, rfl⟩
    · rw [if_neg opcode]
      refine Std.TreeMap.getElem?_ofList_of_contains_eq_false ?_
      rw [← Bool.not_eq_true, List.contains_iff_mem]
      simp only [List.mem_map, List.mem_filter, decide_eq_true_eq, not_exists, not_and]
      rintro - ⟨⟨u, j⟩, ⟨other, constant⟩, rfl⟩ rfl
      have same := List.inj_on_of_nodup_map single member other rfl
      obtain rfl : i = j := congrArg Prod.snd same
      exact opcode constant

end Frame
end Straightline.Check
