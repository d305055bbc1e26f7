import Straightline.Allocation.Run
import Straightline.Check.Report
import Straightline.Source.Parser

/-! Traces: a message for each thing that the program did, in the order in which it was done. -/
namespace Straightline

namespace Allocation

def Options.dump (o : Options) : String :=
  dumpRecord "RegallocOptions" [("verbose_log", toString o.verbose),
    ("victim_window", toString o.window), ("spill_base", toString o.base)]

def Stats.dump (s : Stats) : String :=
  dumpRecord "Stats" [("evictions", toString s.evictions), ("spill_stores", toString s.stores),
    ("restores", toString s.restores), ("remats", toString s.recomputations),
    ("inserted_insts", toString s.inserted)]

def Status.dump : Status → String
  | unknown => "Unknown"
  | clean => "Clean"
  | dirty => "Dirty"

def Cost.dump : Cost → String
  | dirty => "Dirty"
  | clean => "Clean"
  | constant => "Remat"

def Holding.message (e : Holding) : String :=
  s!"  {e.reg.label}: {e.value.label} next use {e.nextUse.text} {e.status.dump} {slotText e.slot}"

def Event.messages : Event → List String
  | started size k maxLive plan =>
    let address := dumpOption (plan.address.map Reg.dump)
    [s!"allocating {size} instructions: k = {k}, MaxLive = {maxLive}, usable = {plan.usable}, " ++
      s!"address register {address}"]
  | reached h i => [s!"alloc {dumpHandle h}: {i.opcode.mnemonic} {i.dumpOperands}"]
  | chosen v =>
    [s!"  victim {v.reg.label} holding {v.value.label} ({v.cost.dump}, next use {v.nextUse.text})"]
  | evictedConstant v p => [s!"  evict {v.label} from {p.label}: rematerializable"]
  | evictedClean v p => [s!"  evict {v.label} from {p.label}: clean"]
  | evictedStored v p slot => [s!"  evict {v.label} from {p.label}: store to {slotText slot}"]
  | slotGiven v slot => [s!"  {v.label} gets spill slot {slotText slot}"]
  | inserting h i => [s!"  insert before {dumpHandle h}: {i.dump}"]
  | inserted h before => [s!"inserted {dumpHandle h} before {dumpHandle before}"]
  | placed v p => [s!"  {label v} -> {p.label}"]
  | recomputed v c p => [s!"  rematerialize {v.label} = {c} into {p.label}"]
  | liveIn v => [s!"  {v.label} is live into the block"]
  | restored v slot p => [s!"  restore {v.label} from {slotText slot} into {p.label}"]
  | freed v p => [s!"  free {v.label} from {p.label}"]
  | holdings held free =>
    let listed := dumpList (free.reverse.map Reg.dump)
    "state:" :: held.map Holding.message ++ [s!"  free: {listed}"]
  | finished stats => [s!"allocation done: {stats.dump}"]

def trace (a : Allocation) : List String := a.events.flatMap Event.messages

end Allocation

namespace Renaming

def Step.message (s : Step) : String :=
  s!"rename {dumpHandle s.handle} @ {s.position}: {s.instr.dumpOperands} live={s.env.live}"

def trace (r : Renaming) : List String :=
  r.steps.reverse.map Step.message ++
    match r.result with
    | .ok s => [s!"rename done: {s.numVirtual} vregs, MaxLive {s.maxLive}"]
    | .error _ => []

end Renaming

def Check.trace (errors : List Error) : List String := errors.map fun e => s!"checker: {e.message}"

def Source.trace (ds : List Diagnostic) : List String :=
  ds.map fun d => s!"{d.cause.stage.name} error on line {d.line}: {d.cause.message}"

end Straightline
