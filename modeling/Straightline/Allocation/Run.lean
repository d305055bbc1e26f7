import Straightline.Allocation.Audit
import Straightline.Allocation.Spill

/-! Allocation. The block is walked once from its first instruction to its last. At an instruction
every value read is brought into a register first; values read for the last time give theirs up; then
the value written is given one. -/
namespace Straightline.Allocation

namespace Work

def assignSlot (handle : Handle) (slot : Slot) (p : PhysicalReg) : Work Unit :=
  modify fun s => {s with block := s.block.modify handle (Instr.setPhysical · slot p)}

def pin (p : PhysicalReg) : Work Unit := modify fun s => {s with pinned := s.pinned.insert p}

def unpinAll : Work Unit := modify fun s => {s with pinned := .empty}

def fetch (plan : Plan) (site : Site) (v : VirtualReg) (nextUse : NextUse) :
    Work PhysicalReg := do
  match (← value v).home with
  | some p => pure p
  | none =>
    let p ← placeInRegister plan site v nextUse
    restore plan site v p
    pure p

def readSlot (plan : Plan) (site : Site) (i : Instr) (slot : Slot) : Work Unit := do
  let op := i.operand slot
  let v ← ofExcept (present op.virtual)
  let p ← fetch plan site v op.nextUse
  assignSlot site.handle slot p
  pin p
  updateRegister p (Option.map fun o => {o with nextUse := op.nextUse})

def writeSlot (plan : Plan) (site : Site) (i : Instr) (slot : Slot) : Work Unit := do
  let op := i.operand slot
  let p ← placeInRegister plan site op.virtual op.nextUse
  assignSlot site.handle slot p
  let v ← ofExcept (present op.virtual)
  let constant := if i.opcode = .loadI then some i.constant else none
  updateValue v fun x => {x with constant, status := .dirty}
  if op.nextUse = .never then release v

def snapshot : Work Unit := do
  let s ← get
  record (.holdings s.holdings s.free)

def allocateInstr (plan : Plan) (handle : Handle) : Work Unit := do
  let i ← ofExcept ((← get).block.get (some handle))
  let site : Site := ⟨handle, i.line⟩
  record (.reached handle i)
  unpinAll
  i.opcode.reads.forM (readSlot plan site i)
  i.lastReads.forM release
  unpinAll
  i.opcode.writes.toList.forM (writeSlot plan site i)
  if plan.options.verbose then snapshot
  ofExcept ((← get).audit plan)

/-- Follows the links from `handle`. The link is read before the instruction is allocated; what is
inserted in front of the instruction is not met. -/
def allocateFrom (plan : Plan) : Nat → Option Handle → Work Unit
  | _, none => pure ()
  | 0, some h => throw (.fault (.cycle h))
  | n + 1, some h => do
    let next ← ofExcept ((← get).block.next (some h))
    allocateInstr plan h
    allocateFrom plan n next

def allocateAll (plan : Plan) : Work Unit := do
  let b := (← get).block
  allocateFrom plan b.links.size b.first
  ofExcept ((← get).auditAll plan)

end Work

def State.output (s : State) (plan : Plan) : Output :=
  ⟨plan.usable, plan.address, s.slots, s.stats⟩

end Allocation

/-- What became of an allocation. The block is as far changed as the work went. -/
structure Allocation where
  block : Block
  events : List Allocation.Event
  result : Except Allocation.Stop Allocation.Output
  deriving Repr

namespace Block
open Allocation

def allocateRenamed (b : Block) (summary : Renaming.Summary) (k : Nat) (options : Options) :
    Allocation :=
  match Plan.make k summary options with
  | .error stop => ⟨b, [], .error stop⟩
  | .ok plan =>
    let start := Event.started b.size k summary.maxLive plan
    match reserve summary.numVirtual 1 with
    | .error fault => ⟨b, [start], .error (.fault fault)⟩
    | .ok _ =>
      match Work.allocateAll plan (State.initial b plan summary.numVirtual) with
      | .ok _ s => ⟨s.block, start :: s.log.reverse ++ [.finished s.stats], .ok (s.output plan)⟩
      | .error stop s => ⟨s.block, start :: s.log.reverse, .error stop⟩

def allocate (b : Block) (k : Nat) (options : Options) : Renaming × Allocation :=
  let renamed := b.rename
  match renamed.result with
  | .ok summary => (renamed, renamed.block.allocateRenamed summary k options)
  | .error fault => (renamed, ⟨renamed.block, [], .error (.fault fault)⟩)

end Block
end Straightline
