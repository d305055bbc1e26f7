import Straightline.Source.Token

/-! What can be wrong with a line of source text: a word that cannot be read, or words that do not
make an operation. -/
namespace Straightline.Source

inductive LexicalError where
  | straySlash
  | loneEquals
  | constantTooLarge (digits : List Char)
  | registerTooLarge (word : List Char)
  | registerWithoutDigits (word : List Char)
  | unknownWord (word : List Char)
  | invalidChar (c : Char)
  deriving DecidableEq, Repr

def LexicalError.message : LexicalError → String
  | straySlash => "stray '/'"
  | loneEquals => "'=' not followed by '>'"
  | constantTooLarge digits => s!"constant {String.ofList digits} is too large"
  | registerTooLarge word => s!"register number too large in '{String.ofList word}'"
  | registerWithoutDigits word =>
    s!"'r' not followed by digits or 'shift' in '{String.ofList word}'"
  | unknownWord word => s!"invalid token '{String.ofList word}'"
  | invalidChar c => s!"invalid char '{c}'"

inductive Part where
  | constant
  | arrow
  | comma
  | destination
  | source
  | firstSource
  | secondSource
  deriving DecidableEq, Repr

def Part.name : Part → String
  | constant => "constant"
  | arrow => "'=>'"
  | comma => "comma"
  | destination => "destination register"
  | source => "source register"
  | firstSource => "first source register"
  | secondSource => "second source register"

inductive SyntaxError where
  | unrecognized
  | missing (part : Part) (op : Opcode)
  | extra (op : Opcode)
  deriving DecidableEq, Repr

def SyntaxError.message : SyntaxError → String
  | unrecognized => "Unrecognized operation."
  | missing part op => s!"Missing {part.name} in {op.mnemonic}."
  | extra op => s!"Extra tokens after {op.mnemonic}."

inductive Stage where
  | lexical
  | grammar
  deriving DecidableEq, Repr

def Stage.name : Stage → String
  | lexical => "lexical"
  | grammar => "syntax"

inductive Cause where
  | lexical (error : LexicalError)
  | grammar (error : SyntaxError)
  deriving DecidableEq, Repr

def Cause.stage : Cause → Stage
  | lexical _ => .lexical
  | grammar _ => .grammar

def Cause.message : Cause → String
  | lexical error => error.message
  | grammar error => error.message

structure Diagnostic where
  line : Nat
  cause : Cause
  deriving DecidableEq, Repr

def Stage.report (stage : Stage) (line : Nat) (message : String) : String :=
  match stage with
  | .lexical => s!"ERROR {line}: {message}"
  | .grammar => s!"ERROR {line}:\t{message}"

def Diagnostic.text (d : Diagnostic) : String :=
  d.cause.stage.report d.line d.cause.message

def reportText (ds : List Diagnostic) : String :=
  String.join (ds.map fun d => d.text ++ "\n")

end Straightline.Source
