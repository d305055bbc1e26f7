import Mathlib.Logic.Function.Basic
import Straightline.Block

/-! What a block computes. A machine has registers of one naming, a memory that has a word at every
address, and the words put out so far. A place that names no register stands for a register of its
own, so the meaning of an instruction is total. The arithmetic is whatever it is: every operation
applies one function of two words, and nothing below depends on which. -/
namespace Straightline

abbrev Arithmetic := Opcode → Word → Word → Word

structure Machine (n : Naming) where
  registers : Option (Reg n) → Word
  memory : Word → Word
  outputs : List Word

namespace Instr

def readRegs (n : Naming) (i : Instr) : List (Option (Reg n)) := i.readOperands.map (·.reg n)

def writtenReg (n : Naming) (i : Instr) : Option (Option (Reg n)) := i.writtenOperand.map (·.reg n)

variable {n : Naming} {i : Instr} {slot : Slot} {r : Option (Reg n)}

theorem memReadRegs :
    r ∈ i.readRegs n ↔ ∃ slot ∈ i.opcode.reads, (i.operand slot).reg n = r := by
  simp [readRegs, readOperands]

theorem memWrittenReg :
    i.writtenReg n = some r ↔ ∃ slot, i.opcode.writes = some slot ∧ (i.operand slot).reg n = r := by
  simp [writtenReg, writtenOperand]

theorem writtenRegNone (silent : i.opcode.writes = none) : i.writtenReg n = none := by
  simp [writtenReg, writtenOperand, silent]

theorem writtenRegSome (writes : i.opcode.writes = some slot) :
    i.writtenReg n = some ((i.operand slot).reg n) :=
  memWrittenReg.mpr ⟨slot, writes, rfl⟩

end Instr

namespace Machine

variable {n : Naming}

def start (registers : Option (Reg n) → Word) (memory : Word → Word) : Machine n :=
  ⟨registers, memory, []⟩

def read (m : Machine n) (i : Instr) (slot : Slot) : Word := m.registers ((i.operand slot).reg n)

def result (arith : Arithmetic) (m : Machine n) (i : Instr) : Word :=
  match i.opcode with
  | .loadI => i.constant
  | .load => m.memory (m.read i .first)
  | op => arith op (m.read i .first) (m.read i .second)

def step (arith : Arithmetic) (m : Machine n) (i : Instr) : Machine n where
  registers := match i.writtenReg n with
    | some r => Function.update m.registers r (m.result arith i)
    | none => m.registers
  memory := if i.opcode = .store then
      Function.update m.memory (m.read i .third) (m.read i .first)
    else m.memory
  outputs := if i.opcode = .output then m.outputs ++ [m.memory i.constant] else m.outputs

def run (arith : Arithmetic) (m : Machine n) (is : List Instr) : Machine n :=
  is.foldl (step arith) m

def accessed (m : Machine n) (i : Instr) : Option Word :=
  match i.opcode with
  | .load => some (m.read i .first)
  | .store => some (m.read i .third)
  | .output => some i.constant
  | _ => none

def accesses (arith : Arithmetic) (m : Machine n) : List Instr → List Word
  | [] => []
  | i :: is => (m.accessed i).toList ++ accesses arith (m.step arith i) is

def spills (arith : Arithmetic) (m : Machine n) : List Instr → List Word
  | [] => []
  | i :: is =>
    (if i.inserted ∧ i.opcode = .store then [m.read i .third] else []) ++
      spills arith (m.step arith i) is

end Machine

def writtenRegs (n : Naming) (is : List Instr) : List (Option (Reg n)) :=
  is.filterMap (Instr.writtenReg n)

theorem writtenRegsCons (n : Naming) (i : Instr) (is : List Instr) :
    writtenRegs n (i :: is) = (i.writtenReg n).toList ++ writtenRegs n is := by
  cases written : i.writtenReg n <;> simp [writtenRegs, written]

def ReadsKnown (n : Naming) : List (Option (Reg n)) → List Instr → Prop
  | _, [] => True
  | known, i :: is => (∀ r ∈ i.readRegs n, r ∈ known) ∧
      ReadsKnown n (known ++ (i.writtenReg n).toList) is

instance readsKnownDecidable {n : Naming} :
    (known : List (Option (Reg n))) → (is : List Instr) → Decidable (ReadsKnown n known is)
  | _, [] => .isTrue trivial
  | known, i :: is =>
    have := readsKnownDecidable (known ++ (i.writtenReg n).toList) is
    inferInstanceAs (Decidable ((∀ r ∈ i.readRegs n, r ∈ known) ∧
      ReadsKnown n (known ++ (i.writtenReg n).toList) is))

namespace Machine

variable {n m : Naming} {arith : Arithmetic}

theorem runCons (x : Machine n) (i : Instr) (is : List Instr) :
    x.run arith (i :: is) = (x.step arith i).run arith is := rfl

theorem memAccesses {x : Machine n} {i : Instr} {is : List Instr} {a : Word} :
    a ∈ x.accesses arith (i :: is) ↔ a ∈ x.accessed i ∨ a ∈ (x.step arith i).accesses arith is := by
  simp [accesses]

theorem memSpills {x : Machine n} {i : Instr} {is : List Instr} {a : Word} :
    a ∈ x.spills arith (i :: is) ↔ (i.inserted ∧ i.opcode = .store) ∧ x.read i .third = a ∨
      a ∈ (x.step arith i).spills arith is := by
  simp only [spills, List.mem_append]
  by_cases store : i.inserted ∧ i.opcode = .store
  · simp [store, eq_comm]
  · rw [if_neg store]
    simp [store]

structure Alike (x : Machine n) (i : Instr) (y : Machine m) (j : Instr) : Prop where
  opcode : j.opcode = i.opcode
  constant : j.constant = i.constant
  reads : ∀ slot ∈ i.opcode.reads, y.read j slot = x.read i slot

theorem accessedAlike {x : Machine n} {i : Instr} {y : Machine m} {j : Instr}
    (alike : Alike x i y j) : y.accessed j = x.accessed i := by
  have reads := alike.reads
  unfold accessed
  rw [alike.opcode]
  cases operation : i.opcode <;> simp [operation, Opcode.reads] at reads ⊢
  · exact reads
  · exact reads.2
  · exact alike.constant

theorem resultAlike (arith : Arithmetic) {x : Machine n} {i : Instr} {y : Machine m} {j : Instr}
    (alike : Alike x i y j) (writes : i.opcode.writes.isSome)
    (memory : ∀ a ∈ x.accessed i, y.memory a = x.memory a) :
    y.result arith j = x.result arith i := by
  have reads := alike.reads
  unfold accessed at memory
  unfold result
  rw [alike.opcode]
  cases operation : i.opcode <;> simp_all [Opcode.reads, Opcode.writes]
  exact alike.constant

theorem memoryAlike (arith : Arithmetic) (apart : Word → Prop) {x : Machine n} {i : Instr}
    {y : Machine m} {j : Instr} (alike : Alike x i y j) (memory : ∀ a, ¬ apart a → y.memory a = x.memory a) :
    ∀ a, ¬ apart a → (y.step arith j).memory a = (x.step arith i).memory a := by
  intro a outside
  simp only [step, alike.opcode]
  by_cases operation : i.opcode = .store
  · have reads := alike.reads
    simp only [operation, Opcode.reads, List.mem_cons, List.not_mem_nil, or_false, forall_eq_or_imp,
      forall_eq] at reads
    simp only [operation, if_true, reads.1, reads.2, Function.update_apply, memory a outside]
  · simp only [operation, if_false, memory a outside]

theorem outputsAlike (arith : Arithmetic) {x : Machine n} {i : Instr} {y : Machine m} {j : Instr}
    (alike : Alike x i y j) (memory : ∀ a ∈ x.accessed i, y.memory a = x.memory a)
    (outputs : y.outputs = x.outputs) :
    (y.step arith j).outputs = (x.step arith i).outputs := by
  simp only [step, alike.opcode, outputs]
  by_cases operation : i.opcode = .output
  · simp only [operation, if_true, alike.constant, memory i.constant (by simp [accessed, operation])]
  · simp only [operation, if_false]

end Machine
end Straightline
