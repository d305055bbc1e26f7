import Straightline.Renaming

/-! What an allocation is asked for and what it answers. With `k` registers and more values than fit
at once, the last register is set aside to hold spill addresses and the others carry values. -/
namespace Straightline.Allocation

structure Options where
  verbose : Bool := false
  /-- Next uses at most this far short of the farthest count as tied with it. -/
  window : Word := 1
  base : Word := 32768
  deriving DecidableEq, Repr

structure Stats where
  evictions : Nat := 0
  stores : Nat := 0
  restores : Nat := 0
  recomputations : Nat := 0
  inserted : Nat := 0
  deriving DecidableEq, Repr

structure Output where
  usable : Nat
  address : Option PhysicalReg
  slots : Nat
  stats : Stats
  deriving DecidableEq, Repr

inductive Error where
  | tooFewRegisters (k maxLive : Nat)
  | tooManyLive (handle : Handle) (line : Nat)
  | unexpectedSpill (line : Nat) (value : VirtualReg)
  deriving DecidableEq, Repr

def Error.message : Error → String
  | tooFewRegisters k maxLive =>
    s!"k = {k} is too small: no allocatable registers remain (MaxLive = {maxLive})"
  | tooManyLive _ line =>
    s!"line {line}: too many operands live at once for the available registers"
  | unexpectedSpill line value =>
    s!"line {line}: internal error: v{value.number} spilled without a spill address register"

inductive Stop where
  | error (e : Error)
  | fault (f : Fault)
  deriving DecidableEq, Repr

structure Plan where
  usable : Nat
  address : Option PhysicalReg
  options : Options
  deriving DecidableEq, Repr

def Plan.make (k : Nat) (summary : Renaming.Summary) (options : Options) : Except Stop Plan :=
  if 64 < k then .error (.fault .tooManyRegisters)
  else if k = 0 then .error (.error (.tooFewRegisters k summary.maxLive))
  else if summary.maxPressure ≤ k then .ok ⟨k, none, options⟩
  else if k = 1 then .error (.error (.tooFewRegisters k summary.maxLive))
  else .ok ⟨k - 1, Reg.ofNat? .physical (k - 1), options⟩

end Straightline.Allocation
