import Straightline.Instr

/-! Words of the source text. A lexeme is what a word says; a token is the record of a word, or of
the end of a line or of the text, as it is listed line by line. -/
namespace Straightline.Source

inductive Lexeme where
  | op (opcode : Opcode)
  | constant (value : Word)
  | register (r : SourceReg)
  | comma
  | into
  deriving DecidableEq, Repr

inductive Category where
  | memOp
  | loadI
  | arithOp
  | output
  | nop
  | const
  | reg
  | comma
  | into
  | newline
  | endFile
  deriving DecidableEq, Repr

namespace Category

def all : List Category :=
  [memOp, loadI, arithOp, output, nop, const, reg, comma, into, newline, endFile]

def name : Category → String
  | memOp => "MEMOP"
  | loadI => "LOADI"
  | arithOp => "ARITHOP"
  | output => "OUTPUT"
  | nop => "NOP"
  | const => "CONST"
  | reg => "REG"
  | comma => "COMMA"
  | into => "INTO"
  | newline => "NEWLINE"
  | endFile => "ENDFILE"

def ofName? (name : String) : Option Category :=
  all.find? (fun c => c.name == name)

def ofOpcode : Opcode → Category
  | .load | .store => memOp
  | .loadI => loadI
  | .add | .sub | .mult | .lshift | .rshift => arithOp
  | .output => output
  | .nop => nop

end Category

structure Token where
  category : Category
  opcode : Option Opcode := none
  value : Word := 0
  line : Nat
  deriving DecidableEq, Repr

namespace Token

def ofLexeme (line : Nat) : Lexeme → Token
  | .op o => {category := .ofOpcode o, opcode := some o, line}
  | .constant v => {category := .const, value := v, line}
  | .register r => {category := .reg, value := UInt32.ofNat r.number, line}
  | .comma => {category := .comma, line}
  | .into => {category := .into, line}

def lexeme (t : Token) : String :=
  match t.category with
  | .reg => s!"r{t.value}"
  | .const => toString t.value
  | .comma => ","
  | .into => "=>"
  | .newline => "\\n"
  | .endFile => ""
  | .memOp | .loadI | .arithOp | .output | .nop => (t.opcode.map Opcode.mnemonic).getD ""

def text (t : Token) : String :=
  s!"{t.line}: < {t.category.name}, \"{t.lexeme}\" >"

end Token
end Straightline.Source
