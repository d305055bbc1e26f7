import Straightline.Allocation.Value

/-! What an allocation does, step by step. -/
namespace Straightline.Allocation

structure Holding where
  reg : PhysicalReg
  value : VirtualReg
  nextUse : NextUse
  status : Status
  slot : Option Word
  deriving DecidableEq, Repr

inductive Event where
  | started (size k maxLive : Nat) (plan : Plan)
  | reached (handle : Handle) (instr : Instr)
  | chosen (victim : Victim)
  | evictedConstant (value : VirtualReg) (reg : PhysicalReg)
  | evictedClean (value : VirtualReg) (reg : PhysicalReg)
  | evictedStored (value : VirtualReg) (reg : PhysicalReg) (slot : Word)
  | slotGiven (value : VirtualReg) (slot : Word)
  | inserting (before : Handle) (instr : Instr)
  | inserted (handle before : Handle)
  | placed (value : Option VirtualReg) (reg : PhysicalReg)
  | recomputed (value : VirtualReg) (constant : Word) (reg : PhysicalReg)
  | liveIn (value : VirtualReg)
  | restored (value : VirtualReg) (slot : Word) (reg : PhysicalReg)
  | freed (value : VirtualReg) (reg : PhysicalReg)
  | holdings (held : List Holding) (free : List PhysicalReg)
  | finished (stats : Stats)
  deriving DecidableEq, Repr

end Straightline.Allocation
