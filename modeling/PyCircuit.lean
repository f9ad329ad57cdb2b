import PyCircuit.Transaction.SourceOrder
import PyCircuit.Commit.Unordered
import PyCircuit.Gfsim.SignExtend
import PyCircuit.Fifo.Contract
import PyCircuit.Fifo.Bisimulation
import PyCircuit.Memory.LockStep
import PyCircuit.MemoryRun.Folding
import PyCircuit.Publication.Failure
import PyCircuit.Publication.Deadlock
import PyCircuit.WorkExecutor.Runs
import PyCircuit.ModelInput.Language
import PyCircuit.SimExecutor.RunControl
import PyCircuit.SystemRunner.Serialization
import PyCircuit.NumericLowering.Exact
import PyCircuit.HardwareEmit.Bijection
import PyCircuit.NumericLowering.FixedDivRem
import PyCircuit.TableEmit.FoldTree
import PyCircuit.TableEmit.Index
import PyCircuit.TableEmit.ChooseExact
import PyCircuit.PackedLayout.Agreement
import PyCircuit.Table.ViewIndex
import PyCircuit.NumericLowering.SelectInterval
import PyCircuit.FinalCppNames.Identifier
import PyCircuit.SourceTransport.Literals
import PyCircuit.AnchorArtifact.Canonical
