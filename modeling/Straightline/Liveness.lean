import Straightline.Block

/-! Live sets. A source register is live into an instruction when a later read, or a read by the
instruction itself, comes before the next write. Nothing is live out of a block, and inserted
instructions do not count. The sets are found twice: by the backward equations, and from the next
uses that renaming left on the slots. -/
namespace Straightline.Liveness

abbrev LiveSet := Std.TreeSet (Option SourceReg)

def reads (i : Instr) : List (Option SourceReg) := i.readOperands.map Operand.source

def writes (i : Instr) : List (Option SourceReg) := i.writtenOperand.toList.map Operand.source

def liveInto (i : Instr) (after : LiveSet) : LiveSet :=
  (after.eraseMany (writes i)).insertMany (reads i)

def liveSets : List Instr → List LiveSet
  | [] => []
  | i :: rest =>
    let below := liveSets rest
    liveInto i (below.head?.getD ∅) :: below

abbrev Positions := Std.TreeMap (Option SourceReg) Nat

def exposedReads (instrs : List Instr) : Positions :=
  let visit : LiveSet × Positions → Instr × Nat → LiveSet × Positions
    | (seen, exposed), (i, position) =>
      let fresh := (reads i).filter fun r => !seen.contains r
      (seen.insertMany (reads i ++ writes i),
        exposed.insertMany (fresh.map fun r => (r, position)))
  (instrs.zipIdx.foldl visit (∅, ∅)).2

structure Outlook where
  exposed : Positions
  pending : Positions := ∅

namespace Outlook

def note (o : Outlook) (op : Operand) : Outlook where
  exposed := o.exposed.erase op.source
  pending := match op.nextUse.position? with
    | some p => o.pending.insert op.source p
    | none => o.pending.erase op.source

def advance (o : Outlook) (i : Instr) : Outlook :=
  (i.readOperands ++ i.writtenOperand.toList).foldl note o

def atOrAfter (ps : Positions) (position : Nat) : List (Option SourceReg) :=
  (ps.toList.filter fun e => position ≤ e.2).map Prod.fst

def liveInto (o : Outlook) (position : Nat) (i : Instr) : LiveSet :=
  Std.TreeSet.ofList (atOrAfter o.pending position ++ atOrAfter o.exposed position ++ reads i)

end Outlook

def liveSetsAhead (o : Outlook) (position : Nat) : List Instr → List LiveSet
  | [] => []
  | i :: rest => o.liveInto position i :: liveSetsAhead (o.advance i) (position + 1) rest

end Liveness

def Block.liveSets (b : Block) : List Liveness.LiveSet := Liveness.liveSets b.given

def Block.maxLive (b : Block) : Nat := (b.liveSets.map (·.size)).foldl max 0

def Block.liveSetsFromNextUses (b : Block) : List Liveness.LiveSet :=
  Liveness.liveSetsAhead {exposed := Liveness.exposedReads b.given} 0 b.given

end Straightline
