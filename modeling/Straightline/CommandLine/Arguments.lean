import Straightline.Source.Scanner

/-! The arguments of the command line. Each argument adds settings or asks for a value that the next
one gives; an invocation is a list of settings in which nothing is said twice. -/
namespace Straightline.CommandLine

inductive Mode where
  | scan
  | parse
  | table
  | rename
  | allocate (k : Nat)
  deriving DecidableEq, Repr

structure Invocation where
  mode : Mode
  verbose : Bool
  window : Word
  base : Word
  input : String
  deriving DecidableEq, Repr

inductive Setting where
  | mode (m : Mode)
  | verbose
  | window (w : Word)
  | base (w : Word)
  | input (name : String)
  deriving DecidableEq, Repr

namespace Setting

def mode? : Setting → Option Mode
  | mode m => some m
  | _ => none

def verbose? : Setting → Option Bool
  | verbose => some true
  | _ => none

def window? : Setting → Option Word
  | window w => some w
  | _ => none

def base? : Setting → Option Word
  | base w => some w
  | _ => none

def input? : Setting → Option String
  | input name => some name
  | _ => none

end Setting

inductive Key where
  | registers
  | window
  | base
  deriving DecidableEq, Repr

def digits? (text : List Char) : Option Nat :=
  if text.isEmpty || !text.all Char.isDigit then none else some (Source.decimal text)

def number? : List Char → Option Nat
  | '+' :: text => digits? text
  | '-' :: text => (digits? text).filter (· = 0)
  | text => digits? text

def Key.setting? (key : Key) (text : List Char) : Option Setting := do
  let n ← number? text
  match key with
  | .registers => if 3 ≤ n ∧ n ≤ 64 then some (.mode (.allocate n)) else none
  | .window => (Source.word? n).map .window
  | .base => (Source.word? n).map .base

structure Argument where
  settings : List Setting
  wants : Option Key := none
  deriving DecidableEq, Repr

def Argument.more (s : Setting) (a : Argument) : Argument := {a with settings := s :: a.settings}

def readLetters : List Char → Option Argument
  | [] => some ⟨[], none⟩
  | 's' :: rest => (readLetters rest).map (.more (.mode .scan))
  | 'p' :: rest => (readLetters rest).map (.more (.mode .parse))
  | 'r' :: rest => (readLetters rest).map (.more (.mode .table))
  | 'x' :: rest => (readLetters rest).map (.more (.mode .rename))
  | 'v' :: rest => (readLetters rest).map (.more .verbose)
  | ['k'] => some ⟨[], some .registers⟩
  | 'k' :: '=' :: value => (Key.registers.setting? value).map fun s => ⟨[s], none⟩
  | 'k' :: value => (Key.registers.setting? value).map fun s => ⟨[s], none⟩
  | _ => none

def readName (name : List Char) : Option Argument := do
  let key ← match String.ofList (name.takeWhile (· != '=')) with
    | "victim-window" => some Key.window
    | "spill-base" => some Key.base
    | _ => none
  match name.dropWhile (· != '=') with
  | [] => some ⟨[], some key⟩
  | _ :: value => (key.setting? value).map fun s => ⟨[s], none⟩

def readArgument (arg : String) : Option Argument :=
  match arg.toList with
  | '-' :: '-' :: name => readName name
  | ['-'] => some ⟨[.input arg], none⟩
  | '-' :: letters => readLetters letters
  | _ => some ⟨[.input arg], none⟩

/-- The settings of all arguments. After two dashes alone, everything names an input. An argument
that starts with a dash is never the value that the one before it wants. -/
def readArguments (wanted : Option Key) : List String → Option (List Setting)
  | [] => if wanted.isSome then none else some []
  | arg :: rest =>
    match wanted with
    | some key =>
      if arg.startsWith "-" then none else do
        let s ← key.setting? arg.toList
        (readArguments none rest).map (s :: ·)
    | none =>
      if arg = "--" then some (rest.map .input) else do
        let a ← readArgument arg
        (readArguments a.wants rest).map (a.settings ++ ·)

def atMostOne {α : Type} (default : α) : List α → Option α
  | [] => some default
  | [a] => some a
  | _ => none

def Invocation.ofSettings (settings : List Setting) : Option Invocation := do
  let mode ← atMostOne .parse (settings.filterMap Setting.mode?)
  let verbose ← atMostOne false (settings.filterMap Setting.verbose?)
  let window ← atMostOne 1 (settings.filterMap Setting.window?)
  let base ← atMostOne 32768 (settings.filterMap Setting.base?)
  match settings.filterMap Setting.input? with
  | [input] => if input.isEmpty then none else some {mode, verbose, window, base, input}
  | _ => none

def Invocation.ofArguments (args : List String) : Option Invocation :=
  (readArguments none args).bind ofSettings

end Straightline.CommandLine
