import Straightline.Proofs.CheckStep

/-! A checked block computes what its given instructions compute. The symbols of the checker stand
for words: a virtual register for the word it has when only the given instructions run, a constant
for itself. The two runs, of the given instructions on virtual registers and of the whole block on
physical ones, go side by side, and at every point each register and each spill address holds a word
that its symbol stands for. Memory is the same at all other addresses. -/
namespace Straightline.Check

open Machine (Alike)

def givenOf (es : List (Handle × Instr)) : List Instr := (es.map Prod.snd).filter (!·.inserted)

def Stands (known : List (Option VirtualReg)) (x : Machine .virtual) : Content → Word → Prop
  | .unknown, _ => True
  | .value v, w => v ∈ known ∧ x.registers v = w
  | .constant c, w => c = w

structure Agrees (f : Frame) (known : List (Option VirtualReg)) (s : State) (x : Machine .virtual)
    (y : Machine .physical) : Prop where
  registers : ∀ p, Stands known x (s.content p) (y.registers (some p))
  spilled : ∀ a ∈ s.memory, Stands known x (s.load a) (y.memory a)
  memory : ∀ a, a ∉ s.memory → y.memory a = x.memory a
  outputs : y.outputs = x.outputs
  constants : ∀ v ∈ known, ∀ c, f.constants[v]? = some c → x.registers v = c
  defined : ∀ v ∈ known, v ∈ f.defined

section

variable {f : Frame} {known : List (Option VirtualReg)} {s t : State} {x : Machine .virtual}
  {y : Machine .physical} {arith : Arithmetic} {i : Instr}

theorem standsHolds {c : Content} {w : Word} {v : Option VirtualReg} (agrees : Agrees f known s x y)
    (stands : Stands known x c w) (inside : v ∈ known) (holds : f.holds c v = true) :
    x.registers v = w := by
  cases c with
  | unknown => simp [Frame.holds] at holds
  | value u =>
    obtain rfl : u = v := by simpa [Frame.holds] using holds
    exact stands.2
  | constant c =>
    have constant : f.constants[v]? = some c := by simpa [Frame.holds] using holds
    exact (agrees.constants v inside c constant).trans stands

theorem standsStep (arith : Arithmetic) {c : Content} {w : Word} (fresh : ∀ v ∈ i.writtenReg .virtual, v ∉ known)
    (stands : Stands known x c w) :
    Stands (known ++ (i.writtenReg .virtual).toList) (x.step arith i) c w := by
  cases c with
  | unknown => trivial
  | constant c => exact stands
  | value v =>
    obtain ⟨inside, same⟩ := stands
    refine ⟨List.mem_append_left _ inside, ?_⟩
    cases written : i.writtenReg .virtual with
    | none => simpa only [Machine.step, written] using same
    | some u =>
      have differ : v ≠ u := fun equal => fresh u (by simp [written]) (equal ▸ inside)
      simpa only [Machine.step, written, Function.update_of_ne differ] using same

theorem readSame {slot : Slot} (agrees : Agrees f known s x y) (given : f.Given s i t)
    (reads : ∀ r ∈ i.readRegs .virtual, r ∈ known) (inside : slot ∈ i.opcode.reads) :
    y.read i slot = x.read i slot := by
  obtain ⟨p, placed, carries⟩ := given.reads slot inside
  have read : (i.operand slot).virtual ∈ known :=
    reads _ (Instr.memReadRegs.mpr ⟨slot, inside, rfl⟩)
  have holds := carries (agrees.defined _ read)
  have same := standsHolds agrees (agrees.registers p) read holds
  simp only [Machine.read, Operand.reg, placed.1]
  exact same.symm

theorem registersGiven (arith : Arithmetic) (agrees : Agrees f known s x y) (given : f.Given s i t)
    (alike : Alike x i y i) (apart : ∀ a ∈ x.accessed i, a ∉ s.memory)
    (fresh : ∀ v ∈ i.writtenReg .virtual, v ∉ known) (p : PhysicalReg) :
    Stands (known ++ (i.writtenReg .virtual).toList) (x.step arith i) (t.content p)
      ((y.step arith i).registers (some p)) := by
  cases writes : i.opcode.writes with
  | none =>
    have unwritten (n : Naming) : i.writtenReg n = none := Instr.writtenRegNone writes
    have kept := standsStep arith fresh (agrees.registers p)
    rw [given.unwritten writes]
    simpa only [Machine.step, unwritten] using kept
  | some slot =>
    obtain ⟨q, placed, rfl⟩ := given.written slot writes
    have written (n : Naming) : i.writtenReg n = some ((i.operand slot).reg n) :=
      Instr.writtenRegSome writes
    rw [State.contentWrite]
    by_cases same : p = q
    · subst same
      have result := Machine.resultAlike arith alike (by simp [writes])
        fun a touched => agrees.memory a (apart a touched)
      simp only [Machine.step, written, Operand.reg, placed.1, Function.update_self, if_true, Stands,
        result]
      simp
    · have kept := standsStep arith fresh (agrees.registers p)
      have differ : (some p : Option PhysicalReg) ≠ some q := by simpa using same
      rw [if_neg same]
      simpa only [Machine.step, written, Operand.reg, placed.1, Function.update_of_ne differ] using kept

theorem agreesGiven (arith : Arithmetic) (agrees : Agrees f known s x y) (given : f.Given s i t)
    (reads : ∀ r ∈ i.readRegs .virtual, r ∈ known)
    (apart : ∀ a ∈ x.accessed i, a ∉ s.memory)
    (fresh : ∀ v ∈ i.writtenReg .virtual, v ∉ known)
    {is : List Instr} (describes : f.Describes is) (among : i ∈ is) :
    t.memory = s.memory ∧ Agrees f (known ++ (i.writtenReg .virtual).toList) t (x.step arith i)
      (y.step arith i) := by
  have alike : Alike x i y i := ⟨rfl, rfl, fun slot inside => readSame agrees given reads inside⟩
  have memory : t.memory = s.memory := by
    cases writes : i.opcode.writes with
    | none => rw [given.unwritten writes]
    | some slot =>
      obtain ⟨p, -, rfl⟩ := given.written slot writes
      rfl
  have loads (a : Word) : t.load a = s.load a := by simp only [State.load, memory]
  have accessed : ∀ a ∈ x.accessed i, y.memory a = x.memory a :=
    fun a touched => agrees.memory a (apart a touched)
  refine ⟨memory, registersGiven arith agrees given alike apart fresh, ?_, ?_, ?_, ?_, ?_⟩
  · intro a inside
    rw [memory] at inside
    have kept := standsStep arith fresh (agrees.spilled a inside)
    -- A given store goes elsewhere, since the given run never touches a spill address.
    have elsewhere : (y.step arith i).memory a = y.memory a := by
      simp only [Machine.step]
      split
      · rename_i store
        have differ : a ≠ y.read i .third := by
          rintro rfl
          rw [alike.reads .third (by simp [store, Opcode.reads])] at inside
          exact apart _ (by simp [Machine.accessed, store]) inside
        rw [Function.update_of_ne differ]
      · rfl
    rw [elsewhere, loads]
    exact kept
  · rw [memory]
    exact Machine.memoryAlike arith (· ∈ s.memory) alike agrees.memory
  · exact Machine.outputsAlike arith alike accessed agrees.outputs
  · intro v inside c constant
    by_cases old : v ∈ known
    · have same := agrees.constants v old c constant
      exact (standsStep (c := .value v) arith fresh ⟨old, same⟩).2
    · have new : v ∈ i.writtenReg .virtual := by simpa [old] using inside
      rw [describes.constants i among v new] at constant
      split at constant
      · rename_i opcode
        simp only [Machine.step, Option.mem_def.mp new, Function.update_self, Machine.result, opcode]
        exact Option.some.inj constant
      · contradiction
  · intro v inside
    rcases List.mem_append.mp inside with old | new
    · exact agrees.defined v old
    · exact (describes.defined v).mpr (List.mem_filterMap.mpr ⟨i, among, by simpa using new⟩)

theorem agreesWrite {c : Content} {w : Word} (agrees : Agrees f known s x y) (p : PhysicalReg)
    (stands : Stands known x c w) :
    Agrees f known (s.write p c) x {y with registers := Function.update y.registers (some p) w} := by
  refine ⟨?_, agrees.spilled, agrees.memory, agrees.outputs, agrees.constants, agrees.defined⟩
  intro q
  rw [State.contentWrite]
  by_cases same : q = p
  · subst same
    simpa using stands
  · have differ : (some q : Option PhysicalReg) ≠ some p := by simpa using same
    simpa only [if_neg same, Function.update_of_ne differ] using agrees.registers q

theorem agreesStore {c : Content} {w : Word} (agrees : Agrees f known s x y) (a : Word)
    (stands : Stands known x c w) :
    Agrees f known (s.store a c) x {y with memory := Function.update y.memory a w} := by
  refine ⟨agrees.registers, ?_, ?_, agrees.outputs, agrees.constants, agrees.defined⟩
  · intro b inside
    rw [State.loadStore]
    by_cases same : a = b
    · subst same
      simpa using stands
    · have old : b ∈ s.memory := by simpa [State.memStore, same] using inside
      simpa only [if_neg same, Function.update_of_ne (Ne.symm same)] using agrees.spilled b old
  · intro b outside
    rw [State.memStore, not_or] at outside
    simpa only [Function.update_of_ne (Ne.symm outside.1)] using agrees.memory b outside.2

theorem agreesInserted (arith : Arithmetic) (agrees : Agrees f known s x y)
    (inserted : f.Inserted s i t) :
    Agrees f known t x (y.step arith i) ∧
      ∀ a, a ∈ t.memory ↔ i.opcode = .store ∧ y.read i .third = a ∨ a ∈ s.memory := by
  cases inserted with
  | @constant p opcode target below =>
    have step : y.step arith i =
        {y with registers := Function.update y.registers (some p) i.constant} := by
      simp [Machine.step, Instr.writtenReg, Instr.writtenOperand, opcode, Opcode.writes,
        Instr.operand, Operand.reg, target, Machine.result]
    rw [step]
    exact ⟨agreesWrite agrees p rfl, by simp [opcode, State.memoryWrite]⟩
  | @load p q a opcode source bounded address content target below =>
    have found : a = y.registers (some q) := by simpa [content, Stands] using agrees.registers q
    have step : y.step arith i =
        {y with registers := Function.update y.registers (some p) (y.memory a)} := by
      simp [Machine.step, Instr.writtenReg, Instr.writtenOperand, opcode, Opcode.writes,
        Instr.operand, Operand.reg, target, source, Machine.result, Machine.read, found]
    have stands : Stands known x (s.load a) (y.memory a) := by
      by_cases inside : a ∈ s.memory
      · exact agrees.spilled a inside
      · simp [State.load, Std.TreeMap.getD_eq_fallback inside, Stands]
    rw [step]
    exact ⟨agreesWrite agrees p stands, by simp [opcode, State.memoryWrite]⟩
  | @store p q a opcode source below target bounded address content =>
    have found : a = y.registers (some q) := by simpa [content, Stands] using agrees.registers q
    have third : y.read i .third = a := by
      simp [Machine.read, Instr.operand, Operand.reg, target, found]
    have step : y.step arith i =
        {y with memory := Function.update y.memory a (y.registers (some p))} := by
      have first : y.read i .first = y.registers (some p) := by
        simp [Machine.read, Instr.operand, Operand.reg, source]
      simp [Machine.step, Instr.writtenReg, Instr.writtenOperand, opcode, Opcode.writes, third, first]
    rw [step]
    exact ⟨agreesStore agrees a (agrees.registers p), by simp [opcode, third, State.memStore]⟩

theorem memoryGrows {es : List (Handle × Instr)} (accepted : f.Accepts s es t) :
    ∀ a ∈ s.memory, a ∈ t.memory := by
  induction accepted with
  | nil => exact fun a inside => inside
  | @cons s t u h i es first rest ih =>
    intro a inside
    apply ih
    cases isInserted : i.inserted with
    | false =>
      have given := (Frame.runGivenOk isInserted).mp first
      cases writes : i.opcode.writes with
      | none => rwa [given.unwritten writes]
      | some slot =>
        obtain ⟨p, -, rfl⟩ := given.written slot writes
        exact inside
    | true =>
      cases Frame.insertedOfRun isInserted first with
      | constant => exact inside
      | load => exact inside
      | store => exact (State.memStore ..).mpr (.inr inside)

/-- The given run keeps out of the spill slots: of those there are at first, and of those that
inserted stores make. -/
theorem agreesRun (arith : Arithmetic) {es : List (Handle × Instr)} (accepted : f.Accepts s es t)
    (agrees : Agrees f known s x y)
    (single : (known ++ writtenRegs .virtual (givenOf es)).Nodup)
    (reads : ReadsKnown .virtual known (givenOf es)) {is : List Instr} (describes : f.Describes is)
    (among : ∀ i ∈ givenOf es, i ∈ is)
    (apart : ∀ a ∈ x.accesses arith (givenOf es), a ∉ s.memory ∧
      (a ∈ y.spills arith (es.map Prod.snd) → a ∉ t.memory)) :
    Agrees f (known ++ writtenRegs .virtual (givenOf es)) t (x.run arith (givenOf es))
        (y.run arith (es.map Prod.snd)) ∧
      ∀ a ∈ t.memory, a ∈ s.memory ∨ a ∈ y.spills arith (es.map Prod.snd) := by
  induction accepted generalizing known x y with
  | nil =>
    refine ⟨?_, fun a inside => .inl inside⟩
    simpa [givenOf, writtenRegs, Machine.run] using agrees
  | @cons s t u h i es first rest ih =>
    cases isInserted : i.inserted with
    | false =>
      have split : givenOf ((h, i) :: es) = i :: givenOf es := by simp [givenOf, isInserted]
      have regs : known ++ writtenRegs .virtual (i :: givenOf es) =
          known ++ (i.writtenReg .virtual).toList ++ writtenRegs .virtual (givenOf es) := by
        rw [writtenRegsCons, List.append_assoc]
      rw [split] at single reads among apart ⊢
      rw [regs] at single ⊢
      have given := (Frame.runGivenOk isInserted).mp first
      have fresh : ∀ v ∈ i.writtenReg .virtual, v ∉ known := by
        intro v new old
        have front := (List.nodup_append.mp single).1
        exact (List.nodup_append.mp front).2.2 v old v (by simpa using new) rfl
      obtain ⟨memory, next⟩ := agreesGiven arith agrees given reads.1
        (fun a touched => (apart a (Machine.memAccesses.mpr (.inl touched))).1) fresh
        describes (among i (by simp))
      have later := ih next single reads.2 (fun j inside => among j (by simp [inside]))
        (fun a touched => by
          have whole := apart a (Machine.memAccesses.mpr (.inr touched))
          simpa [Machine.memSpills, isInserted, memory] using whole)
      simpa [Machine.memSpills, isInserted, memory, Machine.runCons] using later
    | true =>
      have split : givenOf ((h, i) :: es) = givenOf es := by simp [givenOf, isInserted]
      rw [split] at single reads among apart ⊢
      obtain ⟨next, memory⟩ := agreesInserted arith agrees
        (Frame.insertedOfRun isInserted first)
      have later := ih next single reads among (fun a touched => by
        obtain ⟨old, spilled⟩ := apart a touched
        simp only [List.map_cons, Machine.memSpills, isInserted, true_and] at spilled
        refine ⟨?_, fun inside => spilled (.inr inside)⟩
        -- An address that this store makes a slot is one to the end, so the given run avoids it already.
        rw [memory]
        rintro (⟨opcode, same⟩ | there)
        · have inside : a ∈ t.memory := (memory a).mpr (.inl ⟨opcode, same⟩)
          exact spilled (.inl ⟨opcode, same⟩) (memoryGrows rest a inside)
        · exact old there)
      refine ⟨later.1, ?_⟩
      intro a inside
      simp only [List.map_cons, Machine.memSpills, isInserted, true_and]
      rcases later.2 a inside with there | spilled
      · rcases (memory a).mp there with made | old
        · exact .inr (.inl made)
        · exact .inl old
      · exact .inr (.inr spilled)

end

theorem agreesStart (f : Frame) (virtual : Option VirtualReg → Word)
    (physical : Option PhysicalReg → Word) (memory : Word → Word) :
    Agrees f [] {} (.start virtual memory) (.start physical memory) where
  registers p := by
    have blank : ({} : State).content p = .unknown := by
      show (Vector.replicate 64 Content.unknown)[p.index.val] = _
      simp
    simp [blank, Stands]
  spilled a inside := by simp at inside
  memory _ _ := rfl
  outputs := rfl
  constants v inside := by simp at inside
  defined v inside := by simp at inside

theorem checkedRunsAsGiven (b : Block) (usable : Nat) (address : Option PhysicalReg)
    (single : (writtenRegs .virtual b.given).Nodup)
    (reads : ReadsKnown .virtual [] b.given)
    (checked : b.check usable address = .ok [])
    (arith : Arithmetic) (virtual : Option VirtualReg → Word) (physical : Option PhysicalReg → Word)
    (memory : Word → Word)
    (apart : ∀ a ∈ (Machine.start virtual memory).accesses arith b.given,
      a ∉ (Machine.start physical memory).spills arith b.values) :
    ((Machine.start physical memory).run arith b.values).outputs =
        ((Machine.start virtual memory).run arith b.given).outputs ∧
      ∀ a, a ∉ (Machine.start physical memory).spills arith b.values →
        ((Machine.start physical memory).run arith b.values).memory a =
          ((Machine.start virtual memory).run arith b.given).memory a := by
  obtain ⟨-, -, errors⟩ := bindOk.mp checked
  obtain ⟨t, accepted⟩ := Frame.acceptsErrors.mp (Except.ok.inj errors)
  have describes := Frame.ofBlockDescribes usable address single
  obtain ⟨agrees, spilled⟩ := agreesRun arith accepted
    (agreesStart _ virtual physical memory) single reads describes (fun _ inside => inside)
    (fun a touched => ⟨by simp, fun spill => absurd spill (apart a touched)⟩)
  refine ⟨agrees.outputs, fun a outside => agrees.memory a fun inside => ?_⟩
  rcases spilled a inside with old | spill
  · simp at old
  · exact outside spill

def movedValue : Block :=
  let v (i : Fin 4294967295) : Option VirtualReg := some ⟨i⟩
  let p (i : Fin 64) : Option PhysicalReg := some ⟨i⟩
  .ofList [{Instr.loadI 1 7 none with third := {virtual := v 0, physical := p 0}},
    .insertedLoadI 2 100 (p 2), .insertedStore 2 (p 0) (p 2),
    {Instr.loadI 2 8 none with third := {virtual := v 1, physical := p 0}},
    .insertedLoadI 3 100 (p 2), .insertedLoad 3 (p 2) (p 1),
    {Instr.store 3 none none with
      first := {virtual := v 0, physical := p 1}, third := {virtual := v 1, physical := p 0}},
    .output 4 8]

theorem movedValueRunsAsGiven :
    movedValue.check 2 (some ⟨2⟩) = .ok [] ∧
      ((Machine.start (n := .physical) (fun _ => 5) id).run (fun _ a _ => a)
          movedValue.values).outputs =
        ((Machine.start (n := .virtual) (fun _ => 6) id).run (fun _ a _ => a)
          movedValue.given).outputs := by
  have checked : movedValue.check 2 (some ⟨2⟩) = .ok [] := by decide +kernel
  have touched : (Machine.start (n := .virtual) (fun _ => 6) id).accesses (fun _ a _ => a)
      movedValue.given = [8, 8] := by decide +kernel
  have spilled : (Machine.start (n := .physical) (fun _ => 5) id).spills (fun _ a _ => a)
      movedValue.values = [100] := by decide +kernel
  have runs := checkedRunsAsGiven movedValue 2 (some ⟨2⟩) (by decide +kernel) (by decide +kernel)
    checked (fun _ a _ => a) (fun _ => 6) (fun _ => 5) id (by simp [touched, spilled])
  exact ⟨checked, runs.1⟩

end Straightline.Check
