import Straightline.NextUse
import Straightline.Opcode

/-! Instructions. Every operand slot has room for the register's three names and its next use:
reading the source fills in the first name, renaming the second and the next use, and allocation the
third. An instruction that allocation inserted has physical registers only. -/
namespace Straightline

structure Operand where
  source : Option SourceReg := none
  virtual : Option VirtualReg := none
  physical : Option PhysicalReg := none
  nextUse : NextUse := .never
  deriving DecidableEq, Repr

def Operand.reg (op : Operand) : (n : Naming) → Option (Reg n)
  | .source => op.source
  | .virtual => op.virtual
  | .physical => op.physical

structure Instr where
  /-- The source line. An inserted instruction has the line of the one it was inserted before. -/
  line : Nat
  opcode : Opcode
  constant : Word := 0
  first : Operand := {}
  second : Operand := {}
  third : Operand := {}
  inserted : Bool := false
  deriving DecidableEq, Repr

namespace Instr

def operand (i : Instr) : Slot → Operand
  | .first => i.first
  | .second => i.second
  | .third => i.third

def setOperand (i : Instr) (s : Slot) (op : Operand) : Instr :=
  match s with
  | .first => {i with first := op}
  | .second => {i with second := op}
  | .third => {i with third := op}

def setPhysical (i : Instr) (s : Slot) (p : PhysicalReg) : Instr :=
  i.setOperand s {i.operand s with physical := some p}

def readOperands (i : Instr) : List Operand := i.opcode.reads.map i.operand

def writtenOperand (i : Instr) : Option Operand := i.opcode.writes.map i.operand

def lastReads (i : Instr) : List VirtualReg :=
  (i.readOperands.filter fun op => op.nextUse = .never).filterMap Operand.virtual

theorem operandSetSame (i : Instr) (s : Slot) (op : Operand) :
    (i.setOperand s op).operand s = op := by
  cases s <;> rfl

theorem operandSetOther (i : Instr) {s t : Slot} (op : Operand) (different : t ≠ s) :
    (i.setOperand s op).operand t = i.operand t := by
  cases s <;> cases t <;> simp_all [setOperand, operand]

def loadI (line : Nat) (constant : Word) (target : Option SourceReg) : Instr :=
  {line, opcode := .loadI, constant, third := {source := target}}

def load (line : Nat) (address target : Option SourceReg) : Instr :=
  {line, opcode := .load, first := {source := address}, third := {source := target}}

def store (line : Nat) (value address : Option SourceReg) : Instr :=
  {line, opcode := .store, first := {source := value}, third := {source := address}}

def ternary (line : Nat) (opcode : Opcode) (left right target : Option SourceReg) : Instr :=
  {line, opcode, first := {source := left}, second := {source := right},
    third := {source := target}}

def arith (line : Nat) (opcode : Opcode) (left right target : Option SourceReg) : Except Fault Instr :=
  if opcode.isArith then .ok (ternary line opcode left right target) else .error .notArithmetic

def output (line : Nat) (constant : Word) : Instr :=
  {line, opcode := .output, constant}

def nop (line : Nat) : Instr :=
  {line, opcode := .nop}

def insertedLoadI (line : Nat) (constant : Word) (target : Option PhysicalReg) : Instr :=
  {line, opcode := .loadI, constant, third := {physical := target}, inserted := true}

def insertedLoad (line : Nat) (address target : Option PhysicalReg) : Instr :=
  {line, opcode := .load, first := {physical := address}, third := {physical := target},
    inserted := true}

def insertedStore (line : Nat) (value address : Option PhysicalReg) : Instr :=
  {line, opcode := .store, first := {physical := value}, third := {physical := address},
    inserted := true}

end Instr
end Straightline
