import Straightline.CommandLine.Arguments
import Straightline.Trace

/-! What the command line prints, as a function of the arguments and of the input's contents. -/
namespace Straightline.CommandLine

inductive ReadError where
  | notFound
  | isDirectory
  | notText
  | other (message : String)
  deriving DecidableEq, Repr

def ReadError.message : ReadError → String
  | notFound => "No such file or directory (os error 2)"
  | isDirectory => "Is a directory (os error 21)"
  | notText => "stream did not contain valid UTF-8"
  | other message => message

inductive Outcome where
  | finished (code : UInt32) (out err : String)
  | misused
  | fault (f : Fault)
  deriving DecidableEq, Repr

namespace Outcome

def code : Outcome → UInt32
  | finished code _ _ => code
  | misused => 2
  | fault _ => 101

def failed (message : String) : Outcome := finished 1 "" s!"ERROR: {message}\n"

end Outcome

open Source

def scanText (text : String) : Outcome :=
  let found := lexicalDiagnostics text
  .finished (if found.isEmpty then 0 else 1)
    (String.join ((tokens text).map fun t => t.text ++ "\n")) (reportText found)

def withBlock (text lastWord : String) (f : Block → Outcome) : Outcome :=
  match parse text with
  | .ok b => f b
  | .error ds => .finished 1 "" (reportText ds ++ lastWord ++ "\n")

def terminated : String := "\nDue to the syntax error, run terminates."

def statistics (o : Allocation.Output) : String :=
  let address := match o.address with
    | some p => s!"r{p.number}"
    | none => "none"
  let s := o.stats
  s!"usable registers: {o.usable}\nspill address register: {address}\nspill slots: {o.slots}\n" ++
    s!"evictions: {s.evictions}, stores: {s.stores}, restores: {s.restores}, " ++
    s!"rematerializations: {s.recomputations}\ninserted instructions: {s.inserted}\n"

def allocateBlock (inv : Invocation) (k : Nat) (b : Block) : Outcome :=
  let a := (b.allocate k ⟨inv.verbose, inv.window, inv.base⟩).2
  match a.result with
  | .error (.fault f) => .fault f
  | .error (.error e) => .failed e.message
  | .ok o =>
    let listing := a.block.text .physical
    if !inv.verbose then .finished 0 listing "" else
      match a.block.check o.usable o.address with
      | .error f => .fault f
      | .ok [] => .finished 0 listing (statistics o)
      | .ok errors =>
        let failure := s!"ERROR: register allocation checker failed: {Check.report errors}\n"
        .finished 1 listing (statistics o ++ failure)

def renameBlock (b : Block) : Outcome :=
  let r := b.rename
  match r.result with
  | .ok _ => .finished 0 (r.block.text .virtual) ""
  | .error f => .fault f

def Invocation.runText (inv : Invocation) (text : String) : Outcome :=
  match inv.mode with
  | .scan => scanText text
  | .parse => withBlock text "Parse found errors." fun b =>
    .finished 0 s!"Parse succeeded. Processed {b.size} operations.\n" ""
  | .table => withBlock text terminated fun b => .finished 0 b.table ""
  | .rename => withBlock text terminated renameBlock
  | .allocate k => withBlock text terminated (allocateBlock inv k)

def textOf (bytes : ByteArray) : Except ReadError String :=
  match String.fromUTF8? bytes with
  | some text => .ok text
  | none => .error .notText

def Invocation.run (inv : Invocation) (contents : Except ReadError ByteArray) : Outcome :=
  match contents.bind textOf with
  | .ok text => inv.runText text
  | .error e => .failed s!"could not read {inv.input}: {e.message}"

def run (read : String → Except ReadError ByteArray) (args : List String) : Outcome :=
  match Invocation.ofArguments args with
  | some inv => inv.run (read inv.input)
  | none => .misused

end Straightline.CommandLine
