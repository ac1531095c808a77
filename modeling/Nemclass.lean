import Nemclass.Lib.Usize
import Nemclass.Lib.Multiples
import Nemclass.Lib.BoundedHistory
import Nemclass.Lib.Capped
import Nemclass.Lib.PartitionPoint
import Nemclass.Lib.Spans
import Nemclass.Lib.LevelSearch
import Nemclass.Lib.Expansion
import Nemclass.Lib.StructLayout
import Nemclass.Lib.Outcome
import Nemclass.Lib.OperatorChain
import Nemclass.Lib.Utf8
import Nemclass.Lib.Strides
import Nemclass.Lib.Narrowing
import Nemclass.Lib.Guarded
import Nemclass.Lib.KeySort
import Nemclass.Lib.Rewire
import Nemclass.Lib.CommentSlots
import Nemclass.Lib.Reports
import Nemclass.Lib.Numerals
import Nemclass.Lib.MappedPrefix
import Nemclass.Lib.Binary64
import Nemclass.Lib.Rounding
import Nemclass.Lib.Records
import Nemclass.Lib.FirstSeen
import Nemclass.Lib.Words
import Nemclass.Lib.Descent
import Nemclass.Lib.BoundedFifo
import Nemclass.Model.Uuid
import Nemclass.Model.Node
import Nemclass.Model.Project
import Nemclass.Model.Error
import Nemclass.Model.Registry
import Nemclass.Model.RegistryRoundTrip
import Nemclass.Model.References
import Nemclass.Model.ClassStore
import Nemclass.Model.ProjectFile
import Nemclass.Model.Dissect
import Nemclass.Model.NodeEdit
import Nemclass.Model.Construct
import Nemclass.Codegen.Text
import Nemclass.Codegen.ResolvedSize
import Nemclass.Codegen.Fields
import Nemclass.Codegen.Cpp
import Nemclass.Codegen.Rust
import Nemclass.Codegen.ClassSize
import Nemclass.Codegen.NestedSize
import Nemclass.Codegen.EditedSize
import Nemclass.Codegen.CppLayout
import Nemclass.Codegen.RustLayout
import Nemclass.Codegen.CppOrder
import Nemclass.Codegen.Uncommented
import Nemclass.Codegen.CSharp
import Nemclass.Codegen.CommentPieces
import Nemclass.Codegen.Comments
import Nemclass.Codegen.Distinct
import Nemclass.Address.Token
import Nemclass.Address.Tokenizer
import Nemclass.Address.Parser
import Nemclass.Address.Grammar
import Nemclass.Address.ParserGrammar
import Nemclass.Address.Lexing
import Nemclass.Address.Height
import Nemclass.Address.Interpreter
import Nemclass.Address.PathFormula
import Nemclass.Address.SpiderFormula
import Nemclass.Address.PathWalks
import Nemclass.Scan.Target
import Nemclass.Scan.RegionFilter
import Nemclass.Scan.RegionCover
import Nemclass.Scan.Pattern
import Nemclass.Scan.Compare
import Nemclass.Scan.ValueType
import Nemclass.Scan.Results
import Nemclass.Scan.Scanner
import Nemclass.Scan.RegionWalk
import Nemclass.Scan.FirstScan
import Nemclass.Scan.Recorded
import Nemclass.Scan.Responsive
import Nemclass.Scan.Truncation
import Nemclass.Scan.WalkSafety
import Nemclass.Scan.Progress
import Nemclass.Scan.Session
import Nemclass.Scan.History
import Nemclass.Scan.NextScan
import Nemclass.Scan.ChangeScan
import Nemclass.Scan.Ranges
import Nemclass.Scan.PointerScan
import Nemclass.Scan.PointerPaths
import Nemclass.Scan.Spider
import Nemclass.Scan.SpiderWindow
import Nemclass.Scan.WindowExact
import Nemclass.Scan.SpiderSearch
import Nemclass.Scan.PatternText
import Nemclass.Scan.PatternGrammar
import Nemclass.Scan.NeedleText
import Nemclass.Scan.NeedleMeaning
import Nemclass.Scan.IntText
import Nemclass.Scan.Signature
import Nemclass.Scan.SpiderPaths
import Nemclass.Scan.RefineExact
import Nemclass.Scan.SpiderAgrees
import Nemclass.Scan.SpiderOverflow
import Nemclass.Scan.SpiderSlots
import Nemclass.Scan.PointerHarvest
import Nemclass.Scan.PointerMapBuild
import Nemclass.Script.PatternScan
import Nemclass.Script.EngineBlocked
import Nemclass.Analysis.Strings
import Nemclass.Analysis.DetectStrings
import Nemclass.Analysis.MaskedSignature
import Nemclass.Analysis.Disassemble
import Nemclass.Analysis.RegionIndex
import Nemclass.Analysis.AddrClass
import Nemclass.Analysis.DissectCode
import Nemclass.Symbols.Exports
import Nemclass.Symbols.ExportsOverflow
import Nemclass.Symbols.Image
import Nemclass.Symbols.PeListing
import Nemclass.Symbols.ElfListing
import Nemclass.Symbols.GnuHash
import Nemclass.Symbols.GnuTruncated
import Nemclass.Kernel.AccessFile
import Nemclass.Kernel.AccessExact
import Nemclass.Kernel.AccessPolicy
import Nemclass.Kernel.Session
import Nemclass.Kernel.Breakpoints
import Nemclass.Kernel.Debugger
import Nemclass.Kernel.DebugEvents
import Nemclass.Kernel.KeyText
import Nemclass.Kernel.EnumRegions
import Nemclass.Kernel.Transfer
import Nemclass.Kernel.SlotPrograms
import Nemclass.Kernel.SlotLives
import Nemclass.Kernel.SlotSteps
import Nemclass.Kernel.SlotDiscipline
import Nemclass.Kernel.SlotTeardown
import Nemclass.Process.Maps
import Nemclass.Process.MapsLines
import Nemclass.Process.MapsRecovered
import Nemclass.Process.Iovec
import Nemclass.Ui.AddNodeAt
import Nemclass.Ui.PathRow
import Nemclass.Ui.Rescan
import Nemclass.Ui.DisasmXrefs
import Nemclass.Ui.LinearView
import Nemclass.Ui.ClassPicker
import Nemclass.Ui.Flatten
import Nemclass.Ui.FlattenLayout
import Nemclass.Ui.FlattenOpens
import Nemclass.Ui.ScannerPanel
import Nemclass.Ui.ScannerPanelRuns
import Nemclass.Ui.SpiderPanel
import Nemclass.Ui.CheatTable
import Nemclass.Ui.ValueEdit
import Nemclass.Ui.HostCalls
import Nemclass.Ui.ModuleScan
import Nemclass.Ui.StructReads
import Nemclass.Ui.DerefLoop
import Nemclass.Ui.FreezeTicks
import Nemclass.Ui.Lifecycle
import Nemclass.Ui.ClassEdits
import Nemclass.Ui.ScanSession
import Nemclass.Ui.StructWrites
