import Straightline.Block

/-! Renaming. One pass from the last instruction to the first splits every source register into its
live ranges and gives each range a virtual register of its own. At an instruction the register
written is met first: it closes the range that the reads below it opened, or is a range of its own
that nothing reads. Then every register read opens a range unless one is open. Each slot also learns
the position of the next read of its range. -/
namespace Straightline.Renaming

structure Env where
  ranges : Std.TreeMap (Option SourceReg) VirtualReg := ∅
  live : Nat := 0
  reads : Std.TreeMap (Option SourceReg) NextUse := ∅
  minted : Nat := 0
  maxLive : Nat := 0
  maxPressure : Nat := 0

structure Summary where
  maxLive : Nat := 0
  numVirtual : Nat := 0
  /-- The most registers needed at once. This also counts a register that is written and not read
  while other ranges are live across the write. -/
  maxPressure : Nat := 0
  deriving DecidableEq, Repr

namespace Env

def nextUse (env : Env) (r : Option SourceReg) : NextUse := env.reads.getD r .never

def mint (env : Env) : Except Fault (VirtualReg × Env) := do
  let v ← Reg.ofNat .virtual env.minted
  .ok (v, {env with minted := env.minted + 1})

def closeRange (env : Env) (r : Option SourceReg) : Except Fault (VirtualReg × Env) :=
  match env.ranges[r]? with
  | some v =>
    if env.live = 0 then .error .countUnderflow
    else .ok (v, {env with ranges := env.ranges.erase r, live := env.live - 1})
  | none => {env with maxPressure := max env.maxPressure (env.live + 1)}.mint

def openRange (env : Env) (r : Option SourceReg) : Except Fault (VirtualReg × Env) :=
  match env.ranges[r]? with
  | some v => .ok (v, env)
  | none => do
    let (v, env) ← env.mint
    let live := env.live + 1
    .ok (v, {env with ranges := env.ranges.insert r v, live, maxLive := max env.maxLive live})

def write (env : Env) (op : Operand) : Except Fault (Operand × Env) := do
  let (v, closed) ← env.closeRange op.source
  .ok ({op with virtual := some v, nextUse := env.nextUse op.source},
    {closed with reads := closed.reads.erase op.source})

def read (env : Env) (op : Operand) : Except Fault (Operand × Env) := do
  let (v, opened) ← env.openRange op.source
  .ok ({op with virtual := some v, nextUse := env.nextUse op.source}, opened)

def mark (env : Env) (position : Nat) (r : Option SourceReg) : Except Fault Env := do
  let use ← NextUse.ofNat position
  .ok {env with reads := env.reads.insert r use}

def summary (env : Env) : Summary :=
  ⟨env.maxLive, env.minted, max env.maxPressure env.maxLive⟩

end Env

def onSlot (f : Env → Operand → Except Fault (Operand × Env)) (s : Instr × Env) (slot : Slot) :
    Except Fault (Instr × Env) := do
  let (op, env) ← f s.2 (s.1.operand slot)
  .ok (s.1.setOperand slot op, env)

def renameInstr (position : Nat) (i : Instr) (env : Env) : Except Fault (Instr × Env) := do
  if i.inserted then .error .insertedBeforeRenaming
  let written ← i.opcode.writes.toList.foldlM (onSlot Env.write) (i, env)
  let read ← i.opcode.reads.foldlM (onSlot Env.read) written
  let env ← (i.readOperands.map Operand.source).foldlM (Env.mark · position) read.2
  .ok (read.1, env)

structure Step where
  position : Nat
  handle : Handle
  instr : Instr
  env : Env

def envAbove (steps : List Step) : Env := (steps.head?.map Step.env).getD {}

def stepsFrom (position : Nat) : List (Handle × Instr) → Except (Fault × List Step) (List Step)
  | [] => .ok []
  | (h, i) :: rest => do
    let below ← stepsFrom (position + 1) rest
    match renameInstr position i (envAbove below) with
    | .ok (i, env) => .ok (⟨position, h, i, env⟩ :: below)
    | .error fault => .error (fault, below)

end Renaming

structure Renaming where
  block : Block
  steps : List Renaming.Step
  result : Except Fault Renaming.Summary

def Block.rename (b : Block) : Renaming :=
  match Renaming.stepsFrom 0 b.entries with
  | .ok steps =>
    ⟨b.assign (steps.map fun s => (s.handle, s.instr)), steps,
      .ok (Renaming.envAbove steps).summary⟩
  | .error (fault, steps) => ⟨b, steps, .error fault⟩

end Straightline
