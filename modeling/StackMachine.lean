import StackMachine.Decimal.Digits
import StackMachine.Decimal.Rounding
import StackMachine.Number.Basic
import StackMachine.Number.Numeral
import StackMachine.Value
import StackMachine.Instruction.Basic
import StackMachine.Instruction.Decode
import StackMachine.Chunk
import StackMachine.Table
import StackMachine.Listing
import StackMachine.Machine.Fault
import StackMachine.Machine.Basic
import StackMachine.Machine.Run
import StackMachine.Machine.Trace
import StackMachine.Demo
import StackMachine.Main
import StackMachine.Proofs.Decoding
import StackMachine.Proofs.Step
import StackMachine.Proofs.Walk
import StackMachine.Proofs.Dispatch
import StackMachine.Proofs.StraightLine
import StackMachine.Proofs.Faults
import StackMachine.Proofs.Tiling
import StackMachine.Proofs.ListingProgress
import StackMachine.Proofs.Lockstep
import StackMachine.Proofs.Edits
import StackMachine.Proofs.Appending
import StackMachine.Proofs.Emission
import StackMachine.Proofs.SelfContained
import StackMachine.Proofs.TableReading
import StackMachine.Proofs.Legibility
import StackMachine.Proofs.ListingReading
import StackMachine.Proofs.Histories
import StackMachine.Proofs.StackLimit
import StackMachine.Proofs.Congruence
import StackMachine.Proofs.Sessions
import StackMachine.Proofs.UniqueReading
import StackMachine.Proofs.Fetching
import StackMachine.Proofs.CursorProgress
import StackMachine.Proofs.StackSafety
import StackMachine.Proofs.Rounding
import StackMachine.Proofs.NumeralReading
import StackMachine.Proofs.TwoPassFormatting
import StackMachine.Proofs.CanonicalNumerals
import StackMachine.Proofs.GrowingListings
import StackMachine.Proofs.UnreachedConstants
import StackMachine.Proofs.TableAlignment
import StackMachine.Proofs.LineColumn
