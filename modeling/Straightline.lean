import Straightline.Register
import Straightline.Handle
import Straightline.Fault
import Straightline.NextUse
import Straightline.Opcode
import Straightline.Instr
import Straightline.Chain
import Straightline.Block
import Straightline.Listing
import Straightline.RegisterSet
import Straightline.Dump
import Straightline.Source.Token
import Straightline.Source.Diagnostic
import Straightline.Source.Scanner
import Straightline.Source.Parser
import Straightline.Liveness
import Straightline.Renaming
import Straightline.Allocation.Basic
import Straightline.Allocation.Value
import Straightline.Allocation.Event
import Straightline.Allocation.State
import Straightline.Allocation.Spill
import Straightline.Allocation.Audit
import Straightline.Allocation.Run
import Straightline.Check
import Straightline.Check.Report
import Straightline.Trace
import Straightline.CommandLine.Arguments
import Straightline.CommandLine.Run
import Straightline.Main
import Straightline.Chain.Path
import Straightline.Proofs.Machine
import Straightline.Proofs.CheckStep
import Straightline.Proofs.CheckSoundness
import Straightline.Proofs.Entries
import Straightline.Proofs.Chain.Edits
import Straightline.Proofs.Chain.Cursor
import Straightline.Proofs.CheckInPlace
import Straightline.Proofs.Registers
import Straightline.Proofs.RegisterSet
import Straightline.Proofs.Renaming.Pass
import Straightline.Proofs.Renaming.Ranges
import Straightline.Proofs.Renaming.Meaning
import Straightline.Proofs.Renaming.Places
import Straightline.Proofs.Renaming.Reaching
import Straightline.Proofs.Renaming.LiveSets
import Straightline.Proofs.Liveness
import Straightline.Proofs.Renaming.Pressure
import Straightline.Proofs.Allocation.Frame
import Straightline.Proofs.Allocation.Ledger
import Straightline.Proofs.Allocation.Moves
import Straightline.Proofs.Allocation.Steps
import Straightline.Proofs.Allocation.Audit
import Straightline.Proofs.Allocation.Passage
import Straightline.Proofs.Allocation.Walk
import Straightline.Proofs.Allocation.Run
import Straightline.Proofs.Allocation.Outcome
import Straightline.Proofs.Allocation.Additions
import Straightline.Proofs.Allocation.Liveness
import Straightline.Proofs.Allocation.Accounting
import Straightline.Proofs.Allocation.NextUses
import Straightline.Proofs.Allocation.Reuse
import Straightline.Proofs.Allocation.Farthest
import Straightline.Proofs.Allocation.Mirror
import Straightline.Proofs.Allocation.Accepted
import Straightline.Proofs.Allocation.SpillCode
import Straightline.Proofs.Allocation.Threshold
import Straightline.Proofs.Allocation.Meaning
import Straightline.Proofs.Source.Lines
import Straightline.Proofs.Source.Phrases
import Straightline.Proofs.Source.LineGrammar
import Straightline.Proofs.Source.Printing
import Straightline.Proofs.Source.Locality
import Straightline.Proofs.Source.Bytes
import Straightline.Proofs.Source.TokenStream
import Straightline.Proofs.Renaming.Restating
import Straightline.Proofs.Allocation.Twins
import Straightline.Proofs.Allocation.NormalForm
import Straightline.Proofs.Allocation.Rerun
import Straightline.Proofs.Allocation.Midway
import Straightline.Proofs.Allocation.Moments
import Straightline.Proofs.Allocation.Policy
import Straightline.Proofs.Allocation.Shift
import Straightline.Proofs.Allocation.SpillBase
import Straightline.Proofs.CommandLine
