import Ppc2cpp.ControlFlow.Soundness
import Ppc2cpp.ControlFlow.Partition
import Ppc2cpp.ControlFlow.Exits
import Ppc2cpp.ControlFlow.Calls
import Ppc2cpp.ControlFlow.Padding
import Ppc2cpp.DataFlow.ReachingDefinitions
import Ppc2cpp.DataFlow.EntryValues
import Ppc2cpp.DataFlow.Adequacy
import Ppc2cpp.DataFlow.Termination
import Ppc2cpp.DataFlow.UseDefComplete
import Ppc2cpp.DataFlow.CallPreservation
import Ppc2cpp.DataFlow.SinkLists
import Ppc2cpp.DataFlow.NodeIndices
import Ppc2cpp.DataFlow.NodeIds
import Ppc2cpp.Analysis.CallArguments
import Ppc2cpp.Analysis.ReturnRegisters
import Ppc2cpp.Analysis.ValueSlots
import Ppc2cpp.Analysis.Reflexivity
import Ppc2cpp.Analysis.Acyclicity
import Ppc2cpp.Analysis.EquivalentCode
import Ppc2cpp.Analysis.References
import Ppc2cpp.Analysis.Scheduling
import Ppc2cpp.ProgramLoader.Project
import Ppc2cpp.Analysis.PpcdisImport
import Ppc2cpp.ControlFlow.Addends
import Ppc2cpp.ProgramLoader.RelBinary
import Ppc2cpp.ProgramLoader.ElfDestinations
import Ppc2cpp.Analysis.SelfComparison
import Ppc2cpp.ControlFlow.Points
import Ppc2cpp.DataFlow.Worklist
import Ppc2cpp.ProgramLoader.FreshIndexes
import Ppc2cpp.ProgramLoader.RelNames
import Ppc2cpp.Analysis.EquivalentRuns
import Ppc2cpp.DataFlow.Loopless
import Ppc2cpp.Analysis.Fingerprint
import Ppc2cpp.Cli.Reimport
import Ppc2cpp.Analysis.ReturnValues
import Ppc2cpp.Analysis.Drawing
import Ppc2cpp.Analysis.DrawingText
import Ppc2cpp.Cli.Checkflow
