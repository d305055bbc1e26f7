import Straightline.Proofs.Chain.Cursor
import Straightline.Proofs.CheckStep

/-! The check at work. The checker has one table with a place for each register, looks up and changes
the places by number, and goes on behind an instruction that is in error with the table as that
instruction left it. No number it looks up is beyond the table, and an instruction in error leaves the
table untouched, so the errors are those of the check on whole states. -/
namespace Straightline.Check

def Error.handle : Error → Handle
  | missing h _ | outOfRange h _ _ | addressInGiven h _ | incorrect h _ _ _ _ | badAddress h _ _
  | unexpectedOperation h _ => h

structure Table where
  registers : Array Content
  memory : Std.TreeMap Word Content

inductive Break where
  | error (e : Error)
  | fault (f : Fault)
  deriving DecidableEq, Repr

abbrev InPlace := EStateM Break Table

namespace InPlace

variable {α β : Type}

def ofExcept : Except Error α → InPlace α
  | .ok a => pure a
  | .error e => throw (.error e)

def read (p : PhysicalReg) : InPlace Content := do
  let t ← get
  match t.registers[p.number]? with
  | some x => pure x
  | none => throw (.fault (.outOfBounds t.registers.size p.number))

def write (p : PhysicalReg) (x : Content) : InPlace Unit := do
  let t ← get
  if p.number < t.registers.size then
    set {t with registers := t.registers.setIfInBounds p.number x}
  else throw (.fault (.outOfBounds t.registers.size p.number))

def register (f : Frame) (h : Handle) (i : Instr) (slot : Slot) : InPlace PhysicalReg := do
  let t ← get
  ofExcept (f.register t.registers.size h i slot)

def spillAddress (f : Frame) (h : Handle) (i : Instr) (slot : Slot) : InPlace Word := do
  let p ← register f h i slot
  match ← read p with
  | .constant a =>
    if f.address = some p then pure a else throw (.error (.badAddress h p (.constant a)))
  | x => throw (.error (.badAddress h p x))

def checkRead (f : Frame) (h : Handle) (i : Instr) (slot : Slot) : InPlace Unit := do
  let p ← ofExcept (f.register f.usable h i slot)
  let v := (i.operand slot).virtual
  if f.defined.contains v then
    let x ← read p
    if !f.holds x v then throw (.error (.incorrect h slot p v x))

def runGiven (f : Frame) (h : Handle) (i : Instr) : InPlace Unit := do
  i.opcode.reads.forM (checkRead f h i)
  match i.opcode.writes with
  | some slot =>
    let p ← ofExcept (f.register f.usable h i slot)
    write p (.value (i.operand slot).virtual)
  | none => pure ()

def runInserted (f : Frame) (h : Handle) (i : Instr) : InPlace Unit := do
  match i.opcode with
  | .loadI =>
    let target ← register f h i .third
    write target (.constant i.constant)
  | .load =>
    let a ← spillAddress f h i .first
    let target ← register f h i .third
    let t ← get
    write target (t.memory.getD a .unknown)
  | .store =>
    let source ← register f h i .first
    let a ← spillAddress f h i .third
    let x ← read source
    modify fun t => {t with memory := t.memory.insert a x}
  | op => throw (.error (.unexpectedOperation h op))

def run (f : Frame) (h : Handle) (i : Instr) : InPlace Unit :=
  if i.inserted then runInserted f h i else runGiven f h i

end InPlace

structure Progress where
  cursor : Chain.Cursor
  table : Table
  found : List Error

namespace Frame

def start (f : Frame) (b : Block) : Progress :=
  ⟨b.cursor, ⟨.replicate f.numRegisters .unknown, ∅⟩, []⟩

def round (f : Frame) (b : Block) (g : Progress) : Except Fault (Option Progress) := do
  match ← g.cursor.next b with
  | (none, _) => .ok none
  | (some h, cursor) =>
    let i ← b.get (some h)
    match InPlace.run f h i g.table with
    | .ok _ table => .ok (some {g with cursor, table})
    | .error (.error e) table => .ok (some ⟨cursor, table, g.found ++ [e]⟩)
    | .error (.fault fault) _ => .error fault

def rounds (f : Frame) (b : Block) : Nat → Progress → Except Fault Progress
  | 0, g => .ok g
  | n + 1, g => do
    match ← f.round b g with
    | some g => f.rounds b n g
    | none => .ok g

structure Reflects (f : Frame) (t : Table) (s : State) : Prop where
  size : t.registers.size = f.numRegisters
  places : ∀ p : PhysicalReg, p.number < f.numRegisters → t.registers[p.number]? = some (s.content p)
  memory : t.memory = s.memory

end Frame

namespace InPlace

variable {α β : Type} {f : Frame} {t : Table} {s : State} {h : Handle} {i : Instr} {slot : Slot}
  {p : PhysicalReg} {x : Content}

def Answers (w : InPlace α) (t : Table) (r : Except Error α) : Prop := w t = ofExcept r t

/-- What the work makes of the table is what `r` makes of the state, and an error leaves the table
untouched. -/
def Does (f : Frame) (w : InPlace Unit) (t : Table) : Except Error State → Prop
  | .ok s => ∃ t', w t = .ok () t' ∧ f.Reflects t' s
  | .error e => w t = .error (.error e) t

theorem answeredBind {w : InPlace α} {a : α} (answered : Answers w t (.ok a)) (g : α → InPlace β) :
    (w >>= g) t = g a t := by
  have ok : w t = .ok a t := answered
  simp only [bind, EStateM.bind, ok]

theorem refusedBind {w : InPlace α} {e : Error} (refused : Answers w t (.error e)) (g : α → InPlace β) :
    (w >>= g) t = .error (.error e) t := by
  have failed : w t = .error (.error e) t := refused
  simp only [bind, EStateM.bind, failed]

theorem answersBind {w : InPlace α} {r : Except Error α} {g : α → InPlace β} {k : α → Except Error β}
    (first : Answers w t r) (next : ∀ a, r = .ok a → Answers (g a) t (k a)) :
    Answers (w >>= g) t (r >>= k) := by
  cases r with
  | ok a => exact (answeredBind first g).trans (next a rfl)
  | error e => exact refusedBind first g

theorem doesBind {w : InPlace α} {r : Except Error α} {g : α → InPlace Unit}
    {k : α → Except Error State} (first : Answers w t r) (next : ∀ a, r = .ok a → Does f (g a) t (k a)) :
    Does f (w >>= g) t (r >>= k) := by
  cases r with
  | ok a =>
    have later := next a rfl
    change Does f (w >>= g) t (k a)
    cases outcome : k a with
    | ok s => simpa only [Does, answeredBind first, outcome] using later
    | error e => simpa only [Does, answeredBind first, outcome] using later
  | error e => exact refusedBind first g

theorem answersRead (reflects : f.Reflects t s) (below : p.number < f.numRegisters) :
    Answers (read p) t (.ok (s.content p)) := by
  have place := reflects.places p below
  change (match t.registers[p.number]? with
    | some x => pure x
    | none => throw (.fault (.outOfBounds t.registers.size p.number)) : InPlace Content) t = _
  rw [place]
  rfl

theorem answersRegister (reflects : f.Reflects t s) :
    Answers (register f h i slot) t (f.register f.numRegisters h i slot) := by
  rw [← reflects.size]
  rfl

theorem answersSpillAddress (reflects : f.Reflects t s) :
    Answers (spillAddress f h i slot) t (f.spillAddress s h i slot) := by
  refine answersBind (answersRegister reflects) fun p found => ?_
  have below := (Frame.registerOk.mp found).2.2
  rw [Answers, answeredBind (answersRead reflects below)]
  cases s.content p with
  | constant a => by_cases address : f.address = some p <;> simp only [address, if_true, if_false] <;> rfl
  | unknown => rfl
  | value v => rfl

theorem usableBelow (found : f.register f.usable h i slot = .ok p) : p.number < f.numRegisters :=
  Nat.lt_of_lt_of_le (Frame.registerOk.mp found).2.2 (Nat.le_add_right f.usable _)

theorem answersCheckRead (reflects : f.Reflects t s) :
    Answers (checkRead f h i slot) t (f.checkRead s h i slot) := by
  refine answersBind rfl fun p found => ?_
  cases defined : f.defined.contains (i.operand slot).virtual with
  | false =>
    simp only [defined, Bool.false_and, Bool.false_eq_true, if_false]
    rfl
  | true =>
    simp only [defined, Bool.true_and, if_true]
    rw [Answers, answeredBind (answersRead reflects (usableBelow found))]
    cases f.holds (s.content p) (i.operand slot).virtual <;> rfl

theorem answersReads (reflects : f.Reflects t s) (slots : List Slot) :
    Answers (slots.forM (checkRead f h i)) t (slots.forM (f.checkRead s h i)) := by
  induction slots with
  | nil => rfl
  | cons slot slots ih =>
    simp only [List.forM_eq_forM, List.forM_cons] at ih ⊢
    exact answersBind (answersCheckRead reflects) fun _ _ => ih

theorem doesWrite (reflects : f.Reflects t s) (below : p.number < f.numRegisters) :
    Does f (write p x) t (.ok (s.write p x)) := by
  have inside : p.number < t.registers.size := reflects.size.symm ▸ below
  refine ⟨{t with registers := t.registers.setIfInBounds p.number x}, ?_, ?_, ?_, reflects.memory⟩
  · change (if p.number < t.registers.size then
        set {t with registers := t.registers.setIfInBounds p.number x}
      else throw (.fault (.outOfBounds t.registers.size p.number)) : InPlace Unit) t = _
    rw [if_pos inside]
    rfl
  · simpa using reflects.size
  · intro q bound
    rw [Array.getElem?_setIfInBounds, State.contentWrite]
    by_cases same : p = q
    · simp [same, reflects.size, bound]
    · have apart : p.number ≠ q.number := fun equal => same (Reg.numberInjective equal)
      simp [apart, Ne.symm same, reflects.places q bound]

theorem doesGiven (reflects : f.Reflects t s) : Does f (runGiven f h i) t (f.runGiven s h i) := by
  refine doesBind (answersReads reflects i.opcode.reads) fun _ _ => ?_
  cases i.opcode.writes with
  | none => exact ⟨t, rfl, reflects⟩
  | some slot => exact doesBind rfl fun p found => doesWrite reflects (usableBelow found)

theorem doesInserted (reflects : f.Reflects t s) :
    Does f (runInserted f h i) t (f.runInserted s h i) := by
  have below {slot : Slot} {p : PhysicalReg} (found : f.register f.numRegisters h i slot = .ok p) :
      p.number < f.numRegisters := (Frame.registerOk.mp found).2.2
  unfold runInserted Frame.runInserted
  cases i.opcode with
  | loadI => exact doesBind (answersRegister reflects) fun p found => doesWrite reflects (below found)
  | load =>
    refine doesBind (answersSpillAddress reflects) fun a _ => ?_
    refine doesBind (answersRegister reflects) fun p found => ?_
    have same : t.memory.getD a .unknown = s.load a := by rw [reflects.memory]; rfl
    rw [← same]
    exact doesWrite reflects (below found)
  | store =>
    refine doesBind (answersRegister reflects) fun p found => ?_
    refine doesBind (answersSpillAddress reflects) fun a _ => ?_
    refine ⟨{t with memory := t.memory.insert a (s.content p)}, ?_, reflects.size, reflects.places, ?_⟩
    · rw [answeredBind (answersRead reflects (below found))]
      rfl
    · change t.memory.insert a (s.content p) = s.memory.insert a (s.content p)
      rw [reflects.memory]
  | add | sub | mult | lshift | rshift | output | nop => rfl

theorem doesRun (reflects : f.Reflects t s) (h : Handle) (i : Instr) :
    Does f (run f h i) t (f.run s h i) := by
  unfold run Frame.run
  cases i.inserted with
  | true => exact doesInserted reflects
  | false => exact doesGiven reflects

end InPlace

def Blames (h : Handle) {α : Type} (r : Except Error α) : Prop := ∀ e, r = .error e → e.handle = h

section
variable {α β : Type} {h : Handle}

theorem blamesError {e : Error} (same : e.handle = h) : Blames h (.error e : Except Error α) := by
  intro e' equal
  cases equal
  exact same

theorem blamesOk (a : α) : Blames h (.ok a) := by
  intro e equal
  cases equal

theorem blamesBind {r : Except Error α} {k : α → Except Error β} (first : Blames h r)
    (next : ∀ a, Blames h (k a)) : Blames h (r >>= k) := by
  cases r with
  | ok a => exact next a
  | error e => exact blamesError (first e rfl)

end

namespace Frame

variable {f : Frame} {s : State} {h : Handle} {i : Instr} {slot : Slot}

theorem blamesRegister (limit : Nat) : Blames h (f.register limit h i slot) := by
  unfold register
  cases (i.operand slot).physical with
  | none => exact blamesError rfl
  | some p =>
    dsimp only
    split
    · exact blamesError rfl
    · split
      · exact blamesOk p
      · exact blamesError rfl

theorem blamesSpillAddress : Blames h (f.spillAddress s h i slot) := by
  refine blamesBind (blamesRegister _) fun p => ?_
  split
  · split
    · exact blamesOk _
    · exact blamesError rfl
  · exact blamesError rfl

theorem blamesReads (slots : List Slot) : Blames h (slots.forM (f.checkRead s h i)) := by
  induction slots with
  | nil => exact blamesOk ()
  | cons slot slots ih =>
    simp only [List.forM_eq_forM, List.forM_cons] at ih ⊢
    refine blamesBind (blamesBind (blamesRegister _) fun p => ?_) fun _ => ih
    dsimp only
    split
    · exact blamesError rfl
    · exact blamesOk ()

theorem blamesRun (s : State) (h : Handle) (i : Instr) : Blames h (f.run s h i) := by
  unfold run
  split
  · unfold runInserted
    cases i.opcode with
    | loadI => exact blamesBind (blamesRegister _) fun _ => blamesOk _
    | load => exact blamesBind blamesSpillAddress fun _ => blamesBind (blamesRegister _) fun _ => blamesOk _
    | store => exact blamesBind (blamesRegister _) fun _ => blamesBind blamesSpillAddress fun _ => blamesOk _
    | add | sub | mult | lshift | rshift | output | nop => exact blamesError rfl
  · refine blamesBind (blamesReads _) fun _ => ?_
    cases i.opcode.writes with
    | none => exact blamesOk s
    | some slot => exact blamesBind (blamesRegister _) fun _ => blamesOk _

theorem errorsSublist (s : State) (es : List (Handle × Instr)) :
    ((f.errors s es).map Error.handle).Sublist (es.map Prod.fst) := by
  induction es generalizing s with
  | nil => exact .slnil
  | cons e es ih =>
    obtain ⟨h, i⟩ := e
    simp only [errors]
    cases ran : f.run s h i with
    | ok t => exact (ih t).cons h
    | error e =>
      rw [List.map_cons, List.map_cons, blamesRun s h i e ran]
      exact (ih s).cons_cons h

structure Stands (f : Frame) (b : Block) (g : Progress) (s : State) (done rest : List (Handle × Instr)) :
    Prop where
  leaves : Chain.Sweep.Leaves ⟨g.cursor, done.map Prod.fst, []⟩ b (rest.map Prod.fst)
  reflects : f.Reflects g.table s

section
variable {b : Block} {g : Progress} {t : State} {done rest : List (Handle × Instr)}

theorem standsStart (f : Frame) (sound : b.Sound) : Stands f b (f.start b) {} [] b.entries := by
  have handles := Chain.spellsHandles (Chain.soundSpells sound)
  refine ⟨handles ▸ Chain.Sweep.leavesStart sound, by simp [start], ?_, rfl⟩
  intro p below
  have known : State.content {} p = .unknown := by simp [State.content, Vector.get]
  simp [start, known, below]

theorem standsNext (sound : b.Sound) (stands : Stands f b g s done ((h, i) :: rest)) :
    ∃ cursor, g.cursor.next b = .ok (some h, cursor) ∧
      Chain.Sweep.Leaves ⟨cursor, (done ++ [(h, i)]).map Prod.fst, []⟩ b (rest.map Prod.fst) := by
  obtain ⟨cursor, next, leaves⟩ := Chain.Sweep.leavesNext sound stands.leaves
  exact ⟨cursor, next, by simpa using leaves⟩

theorem roundOk (sound : b.Sound) (stands : Stands f b g s done ((h, i) :: rest))
    (value : b.get (some h) = .ok i) (ran : f.run s h i = .ok t) :
    ∃ g', f.round b g = .ok (some g') ∧ g'.found = g.found ∧
      Stands f b g' t (done ++ [(h, i)]) rest := by
  obtain ⟨cursor, next, leaves⟩ := standsNext sound stands
  have does := InPlace.doesRun stands.reflects h i
  rw [ran] at does
  obtain ⟨table, changed, reflects⟩ := does
  refine ⟨{g with cursor, table}, ?_, rfl, leaves, reflects⟩
  simp only [round, next, value, bind, Except.bind, changed]

theorem roundError (sound : b.Sound) (stands : Stands f b g s done ((h, i) :: rest))
    (value : b.get (some h) = .ok i) {e : Error} (ran : f.run s h i = .error e) :
    ∃ g', f.round b g = .ok (some g') ∧ g'.found = g.found ++ [e] ∧ g'.table = g.table ∧
      Stands f b g' s (done ++ [(h, i)]) rest := by
  obtain ⟨cursor, next, leaves⟩ := standsNext sound stands
  have does := InPlace.doesRun stands.reflects h i
  rw [ran] at does
  have kept : InPlace.run f h i g.table = .error (.error e) g.table := does
  refine ⟨⟨cursor, g.table, g.found ++ [e]⟩, ?_, rfl, rfl, leaves, stands.reflects⟩
  simp only [round, next, value, bind, Except.bind, kept]

theorem roundsStand (sound : b.Sound) (es : List (Handle × Instr))
    (values : ∀ e ∈ es, b.get (some e.1) = .ok e.2) (stands : Stands f b g s done (es ++ rest)) :
    ∃ g' t, f.rounds b es.length g = .ok g' ∧ Stands f b g' t (done ++ es) rest ∧
      g'.found = g.found ++ f.errors s es ∧
      ∀ more, f.errors s (es ++ more) = f.errors s es ++ f.errors t more := by
  induction es generalizing g s done with
  | nil => exact ⟨g, s, rfl, by simpa using stands, by simp [errors], fun _ => rfl⟩
  | cons e es ih =>
    obtain ⟨h, i⟩ := e
    obtain ⟨value, values⟩ := List.forall_mem_cons.mp values
    cases ran : f.run s h i with
    | ok t =>
      obtain ⟨g', went, found, stands⟩ := roundOk sound stands value ran
      obtain ⟨last, u, later, stands, more, errors⟩ := ih values stands
      refine ⟨last, u, ?_, by simpa using stands, ?_, fun rest => ?_⟩
      · simp only [List.length_cons, rounds, went, bind, Except.bind, later]
      · simp only [more, found, Frame.errors, ran]
      · simp only [List.cons_append, Frame.errors, ran, errors]
    | error e =>
      obtain ⟨g', went, found, -, stands⟩ := roundError sound stands value ran
      obtain ⟨last, u, later, stands, more, errors⟩ := ih values stands
      refine ⟨last, u, ?_, by simpa using stands, ?_, fun rest => ?_⟩
      · simp only [List.length_cons, rounds, went, bind, Except.bind, later]
      · simp only [more, found, Frame.errors, ran, List.append_assoc, List.singleton_append]
      · simp only [List.cons_append, Frame.errors, ran, errors]

theorem standsEnd (stands : Stands f b g s done []) : f.round b g = .ok none := by
  have nothing := (Chain.Sweep.leavesNothing stands.leaves).1
  simp only [round, nothing, bind, Except.bind]

end
end Frame

/-- Whatever is in the instructions of a block and whichever registers may be used, the check goes
through all of the block without a fault: only making room for the registers, before it starts, can
fail. It finds at most one error an instruction, in their order.
An instruction that is in error leaves the table as it was, and the errors behind it are those of a
check that goes on behind it with the table from before it. -/
theorem checkGoesOnUnharmed (b : Block) (altered : b.Altered) (usable : Nat)
    (address : Option PhysicalReg) :
    let f := Frame.ofBlock b usable address
    ∃ last, f.rounds b b.size (f.start b) = .ok last ∧ f.round b last = .ok none ∧
      b.check usable address = f.reserveRegisters.map (fun _ => last.found) ∧
      (last.found.map Error.handle).Sublist b.handles ∧ b.handles.Nodup ∧
      ∀ n h, b.handles[n]? = some h → ∃ g g' : Progress,
        f.rounds b n (f.start b) = .ok g ∧ f.round b g = .ok (some g') ∧
          (g'.found = g.found ∨ ∃ e later, e.handle = h ∧ g'.found = g.found ++ [e] ∧
            g'.table = g.table ∧
            f.rounds b (b.size - (n + 1)) {g' with table := g.table, found := []} = .ok later ∧
            last.found = g.found ++ e :: later.found) := by
  intro f
  have sound := (Chain.alteredWhole altered).sound
  have spells := Chain.soundSpells sound
  have size := Chain.spellsSize spells
  have values : ∀ e ∈ b.entries, b.get (some e.1) = .ok e.2 := fun e inside =>
    Chain.getValue (spells.values e inside)
  have start := Frame.standsStart f sound
  have whole : Frame.Stands f b (f.start b) {} [] (b.entries ++ []) := by simpa using start
  obtain ⟨last, _, went, ended, found, -⟩ := Frame.roundsStand sound b.entries values whole
  have all : last.found = f.errors {} b.entries := found
  refine ⟨last, size ▸ went, Frame.standsEnd ended, ?_, ?_, sound.nodup, fun n h here => ?_⟩
  · rw [all]
    change (f.reserveRegisters >>= fun _ => _) = _
    cases f.reserveRegisters <;> rfl
  · rw [all, Chain.spellsHandles spells]
    exact Frame.errorsSublist {} b.entries
  · obtain ⟨es, i, rest, split, rfl⟩ := Chain.entriesAt spells here
    rw [split] at start values all
    obtain ⟨g, s, before, stands, earlier, errors⟩ := Frame.roundsStand sound es
      (fun e inside => values e (List.mem_append_left _ inside)) start
    have value := values (h, i) (List.mem_append_right _ List.mem_cons_self)
    cases ran : f.run s h i with
    | ok t =>
      obtain ⟨g', next, same, -⟩ := Frame.roundOk sound stands value ran
      exact ⟨g, g', before, next, .inl same⟩
    | error e =>
      obtain ⟨g', next, more, kept, leaves, -⟩ := Frame.roundError sound stands value ran
      have behind : Frame.Stands f b {g' with table := g.table, found := []} s
          ([] ++ es ++ [(h, i)]) (rest ++ []) := ⟨by simpa using leaves, stands.reflects⟩
      obtain ⟨later, _, resumed, -, others, -⟩ := Frame.roundsStand sound rest
        (fun e inside => values e (List.mem_append_right _ (List.mem_cons_of_mem _ inside))) behind
      have left : b.size - (es.length + 1) = rest.length := by
        rw [size, split, List.length_append, List.length_cons]
        omega
      refine ⟨g, g', before, next, .inr ⟨e, later, Frame.blamesRun s h i e ran, more, kept,
        left ▸ resumed, ?_⟩⟩
      rw [all, errors, earlier, others]
      simp only [Frame.errors, ran]
      rfl

def strayLoadGiven : List Instr :=
  let v : Nat → Option VirtualReg := Reg.ofNat? .virtual
  let p : Nat → Option PhysicalReg := Reg.ofNat? .physical
  [{Instr.loadI 1 7 none with third := {virtual := v 0, physical := p 0}},
    {Instr.load 2 none none with first := {physical := p 2}, third := {physical := p 0}},
    {Instr.store 3 none none with
      first := {virtual := v 0, physical := p 0}, third := {virtual := v 0, physical := p 0}}]

def strayLoad : Block := (Chain.ofList strayLoadGiven).modify 1 fun i => {i with inserted := true}

theorem strayLoadGoesOn :
    let f := Frame.ofBlock strayLoad 2 (some ⟨2⟩)
    ∃ last g g', f.rounds strayLoad 3 (f.start strayLoad) = .ok last ∧
      f.rounds strayLoad 1 (f.start strayLoad) = .ok g ∧ f.round strayLoad g = .ok (some g') ∧
      g'.table = g.table ∧ last.found = [.badAddress 1 ⟨2⟩ .unknown] := by
  intro f
  have altered : strayLoad.Altered := .change (Chain.builtAltered (Chain.ofListBuilt strayLoadGiven)) 1 _
  have checked : strayLoad.check 2 (some ⟨2⟩) = .ok [.badAddress 1 ⟨2⟩ .unknown] := by decide +kernel
  have room : f.reserveRegisters = .ok () := by decide +kernel
  have one : (f.rounds strayLoad 1 (f.start strayLoad)).map Progress.found = .ok [] := by
    decide +kernel
  have two : (f.rounds strayLoad 1 (f.start strayLoad) >>= f.round strayLoad).map
      (Option.map Progress.found) = .ok (some [.badAddress 1 ⟨2⟩ .unknown]) := by decide +kernel
  obtain ⟨last, went, -, whole, -, -, steps⟩ := checkGoesOnUnharmed strayLoad altered 2 (some ⟨2⟩)
  obtain ⟨g, g', before, next, outcome⟩ := steps 1 1 (by decide +kernel)
  have none : g.found = [] := by
    rw [before] at one
    exact Except.ok.inj one
  have wrong : g'.found = [.badAddress 1 ⟨2⟩ .unknown] := by
    rw [before] at two
    change (f.round strayLoad g).map _ = _ at two
    rw [next] at two
    exact Option.some.inj (Except.ok.inj two)
  have kept : g'.table = g.table := by
    rcases outcome with same | ⟨-, -, -, -, kept, -⟩
    · rw [none, wrong] at same
      cases same
    · exact kept
  have all : last.found = [.badAddress 1 ⟨2⟩ .unknown] := by
    rw [room] at whole
    exact Except.ok.inj (whole.symm.trans checked)
  exact ⟨last, g, g', went, before, next, kept, all⟩

end Straightline.Check
