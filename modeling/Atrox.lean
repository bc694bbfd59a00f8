import Atrox.IR.Syntax
import Atrox.IR.Edit
import Atrox.IR.Loops
import Atrox.IR.NaturalLoops
import Atrox.IR.LoopForest
import Atrox.IR.Evaluation
import Atrox.Transforms.BlockSeparator
import Atrox.Transforms.BlockSeparatorPass
import Atrox.Lib.SetVector
import Atrox.Support.GeneralUtils
import Atrox.Analysis.MemoryAccessInfo
import Atrox.Support.ArgUtils
import Atrox.Transforms.CodeExtractor
import Atrox.Transforms.DecomposeMultiDimArrayRefs
import Atrox.Transforms.CloneRegion
import Atrox.Transforms.LoopBodyCloner
import Atrox.Lib.Folds
import Atrox.Lib.MixedRadix
import Atrox.Transforms.CloneStages
import Atrox.Lib.Subst
import Atrox.Lib.Worklist
import Atrox.Transforms.ClonePlan
import Atrox.Transforms.FlattenStages
import Atrox.Transforms.CloneSevered
import Atrox.Transforms.FlattenedGEP
import Atrox.Transforms.CloneShape
import Atrox.Transforms.SeverRegion
import Atrox.Transforms.ExtractedSignature
import Atrox.Transforms.PreparedSets
import Atrox.Transforms.IteratorInput
import Atrox.Transforms.GlobalScan
import Atrox.Transforms.GlobalOutputs
import Atrox.Transforms.SharedOutputs
import Atrox.Transforms.ParameterPositions
import Atrox.Transforms.CloneFrame
import Atrox.Transforms.EntryLoads
import Atrox.Transforms.NewFunction
import Atrox.Transforms.ExitStores
import Atrox.Transforms.SeveredBlocks
import Atrox.Lib.Paths
import Atrox.Transforms.ExitDominance
import Atrox.Transforms.SelfContained
import Atrox.Transforms.SplitBlocks
import Atrox.Transforms.SeveredUses
import Atrox.Transforms.LostPHIs
import Atrox.Transforms.AccessReports
import Atrox.Transforms.SplitPieces
import Atrox.Transforms.SplitChains
import Atrox.Transforms.BlockLabels
import Atrox.Analysis.PayloadTree
import Atrox.Analysis.Selectors
import Atrox.Analysis.TreeOverlap
import Atrox.Analysis.SelectedControl
import Atrox.Analysis.SelectedLoops
import Atrox.Transforms.FlattenedAddress
import Atrox.IR.TypedGEP
import Atrox.Transforms.DecomposedRefs
import Atrox.Transforms.TypedRefs
import Atrox.Transforms.SkippedRefs
import Atrox.Transforms.LinearIndex
import Atrox.Transforms.DecomposePass
import Atrox.Analysis.SelectedEntry
import Atrox.Analysis.LoopBounds
import Atrox.Lib.Simulation
import Atrox.IR.Execution
import Atrox.IR.CodeCopy
import Atrox.Transforms.EntryValues
import Atrox.Transforms.RegionCut
import Atrox.Transforms.ClonedCode
import Atrox.Transforms.RegionSimulation
import Atrox.Analysis.NestBounds
import Atrox.Analysis.NestConditions
import Atrox.Transforms.StackSlots
import Atrox.Transforms.SlotAnalysis
import Atrox.Analysis.PayloadSelection
import Atrox.Transforms.FlattenedClones
import Atrox.Analysis.NestQuery
import Atrox.Lib.Recurrence
import Atrox.Analysis.MaxBounds
import Atrox.Analysis.InnerBounds
import Atrox.Analysis.EvaluatedSpace
import Atrox.Transforms.BidirectionalEntries
import Atrox.Lib.Traces
import Atrox.IR.Behaviour
import Atrox.Transforms.SplitBehaviour
import Atrox.Transforms.SeverBehaviour
import Atrox.Transforms.ResultModule
import Atrox.Transforms.CloneBehaviour
import Atrox.Transforms.CloneLoops
import Atrox.Lib.Numbered
import Atrox.Exchange.JSONTransfer
import Atrox.Transforms.LoopBodyClonerPass
import Atrox.Lib.NodeSplit
import Atrox.Transforms.SeparatedLoops
import Atrox.Transforms.DecomposedBlocks
import Atrox.Lib.Dominators
import Atrox.IR.DominatorTree
import Atrox.Transforms.SplitTree
import Atrox.Transforms.SeparatedDominators
import Atrox.Transforms.ExtractedDominators
import Atrox.Transforms.AsideFunctions
import Atrox.Transforms.UntouchedFunctions
import Atrox.Transforms.SeparatedAgain
