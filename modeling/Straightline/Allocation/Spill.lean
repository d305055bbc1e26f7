import Straightline.Allocation.State

/-! Spill code. A register is wanted and none is free. Only the registers of the operands resolved so
far at the current instruction are out of reach: one that it reads and that is still to be resolved
can be taken, and for its result any can. Of those within reach, the ones whose next use is nearly the
farthest are ranked by what it takes to evict their value and then by next use, and of equals the
lowest goes. Its value is stored to its spill slot unless it is there already or is a constant. A
value that comes back is loaded from there or, if it is a constant, made again. All of this code goes
in front of the instruction that needs it. -/
namespace Straightline.Allocation

namespace State

def candidates (s : State) (plan : Plan) : List PhysicalReg :=
  (Reg.below plan.usable).filter fun p => !s.pinned.contains p

def nextUse (s : State) (p : PhysicalReg) : NextUse :=
  match s.registers[p.number]? with
  | some (some o) => o.nextUse
  | _ => .never

def farthest (s : State) (ps : List PhysicalReg) : NextUse :=
  (ps.map s.nextUse).foldl (fun a b => if a.rank < b.rank then b else a) (.read ⟨0, by decide⟩)

def contenders (s : State) (plan : Plan) : List PhysicalReg :=
  let ps := s.candidates plan
  ps.filter fun p => (s.nextUse p).within plan.options.window.toNat (s.farthest ps)

end State

def slotSize : Nat := 4

structure Site where
  handle : Handle
  line : Nat
  deriving DecidableEq, Repr

namespace Work

def insert (site : Site) (i : Instr) : Work Unit := do
  record (.inserting site.handle i)
  let s ← get
  let block ← ofExcept (s.block.insertBefore (some site.handle) i)
  set {s with block}
  record (.inserted s.block.fresh site.handle)
  count fun t => {t with inserted := t.inserted + 1}

def spillSlot (v : VirtualReg) : Work Word := do
  match (← value v).slot with
  | some slot => pure slot
  | none =>
    let s ← get
    let next := s.nextAddress.toNat + slotSize
    if 4294967296 ≤ next then fail .spillAddressOverflow
    set {s with nextAddress := UInt32.ofNat next, slots := s.slots + 1}
    updateValue v fun x => {x with slot := some s.nextAddress}
    record (.slotGiven v s.nextAddress)
    pure s.nextAddress

def addressRegister (plan : Plan) (site : Site) (v : VirtualReg) : Work PhysicalReg :=
  match plan.address with
  | some p => pure p
  | none => throw (.error (.unexpectedSpill site.line v))

def victimIn (p : PhysicalReg) : Work Victim := do
  match ← occupant p with
  | some o => pure ⟨p, o.value, (← value o.value).cost, o.nextUse⟩
  | none => fail .emptyCandidate

def chooseVictim (plan : Plan) (site : Site) : Work Victim := do
  let victims ← ((← get).contenders plan).mapM victimIn
  match Victim.best victims with
  | some v =>
    record (.chosen v)
    pure v
  | none => throw (.error (.tooManyLive site.handle site.line))

def evict (plan : Plan) (site : Site) (v : VirtualReg) (p : PhysicalReg) : Work Unit := do
  count fun t => {t with evictions := t.evictions + 1}
  match (← value v).cost with
  | .constant =>
    record (.evictedConstant v p)
    updateValue v fun x => {x with status := .clean}
  | .clean => record (.evictedClean v p)
  | .dirty =>
    let address ← addressRegister plan site v
    let slot ← spillSlot v
    record (.evictedStored v p slot)
    insert site (.insertedLoadI site.line slot (some address))
    insert site (.insertedStore site.line (some p) (some address))
    updateValue v fun x => {x with status := .clean}
    count fun t => {t with stores := t.stores + 1}
  vacate p

/-- Brings a value back into the register it was given. A value that was never placed is live into
the block, and whatever the register holds will do. -/
def restore (plan : Plan) (site : Site) (v : VirtualReg) (p : PhysicalReg) : Work Unit := do
  let x ← value v
  match x.constant, x.status with
  | some c, _ =>
    record (.recomputed v c p)
    insert site (.insertedLoadI site.line c (some p))
    updateValue v fun x => {x with status := .dirty}
    count fun t => {t with recomputations := t.recomputations + 1}
  | none, .unknown =>
    record (.liveIn v)
    updateValue v fun x => {x with status := .dirty}
  | none, .dirty => fail .valueNotSaved
  | none, .clean =>
    let address ← addressRegister plan site v
    let slot ← spillSlot v
    record (.restored v slot p)
    insert site (.insertedLoadI site.line slot (some address))
    insert site (.insertedLoad site.line (some address) (some p))
    updateValue v fun x => {x with status := .clean}
    count fun t => {t with restores := t.restores + 1}

def takeRegister (plan : Plan) (site : Site) : Work PhysicalReg := do
  let s ← get
  match s.free with
  | p :: free =>
    set {s with free}
    if s.pinned.contains p then fail .pinnedRegisterFree
    pure p
  | [] =>
    let v ← chooseVictim plan site
    evict plan site v.value v.reg
    pure v.reg

def placeInRegister (plan : Plan) (site : Site) (v : Option VirtualReg) (nextUse : NextUse) :
    Work PhysicalReg := do
  let p ← takeRegister plan site
  record (.placed v p)
  place (← ofExcept (present v)) p nextUse
  pure p

end Work
end Straightline.Allocation
