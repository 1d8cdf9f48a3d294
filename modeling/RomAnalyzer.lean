import RomAnalyzer.Lib.Bfs
import RomAnalyzer.Lib.Regex
import RomAnalyzer.AnnotationsIo
import RomAnalyzer.Propagate
import RomAnalyzer.Merge
import RomAnalyzer.FlashSpace
import RomAnalyzer.Callgraph.Align
import RomAnalyzer.Callgraph.Bfs
import RomAnalyzer.Callgraph.GapFill
import RomAnalyzer.DataRefs
import RomAnalyzer.Diff
import RomAnalyzer.RamSignature
import RomAnalyzer.Callgraph.Anchors
import RomAnalyzer.Callgraph.Identity
import RomAnalyzer.Pipeline.Reference
import RomAnalyzer.Pipeline.Arbitrate
import RomAnalyzer.Pipeline.PostMatch
import RomAnalyzer.NameArbitration
import RomAnalyzer.Pipeline.Provenance
import RomAnalyzer.Pipeline.Analyze
import RomAnalyzer.Pipeline.SelfDiff
import RomAnalyzer.Pipeline.StubAgreement
import RomAnalyzer.Pipeline.VerifyComments
import RomAnalyzer.Enrich
import RomAnalyzer.Lib.Table
import RomAnalyzer.Verdicts
import RomAnalyzer.Pipeline.AutoNames
import RomAnalyzer.Callgraph.GapTrace
import RomAnalyzer.Pipeline.DedupPasses
import RomAnalyzer.Pipeline.NameLookups
import RomAnalyzer.AnnotationsJson
import RomAnalyzer.Cleanup
import RomAnalyzer.Crc.Idiom
import RomAnalyzer.AnnotationFiles
import RomAnalyzer.Candidates
import RomAnalyzer.Consensus
import RomAnalyzer.Pipeline.ClassifyAndApply
import RomAnalyzer.Scripts.BuildReference
import RomAnalyzer.Scripts.CheckReferenceNames
import RomAnalyzer.Scripts.DescriptionLd
import RomAnalyzer.Scripts.EnrichApply
import RomAnalyzer.Scripts.ExportAnnotations
import RomAnalyzer.Pipeline.ApplyEnrichment
import RomAnalyzer.Scripts.NameInvariant
import RomAnalyzer.Pipeline.NameFrame
import RomAnalyzer.Cleanup.Owners
import RomAnalyzer.Cleanup.Sequence
import RomAnalyzer.RamSpace
import RomAnalyzer.Callgraph.Lcs
import RomAnalyzer.Callgraph.IdentityMatches
import RomAnalyzer.RamSignature.Best
import RomAnalyzer.DataRefs.Labels
import RomAnalyzer.Verdicts.Frame
import RomAnalyzer.Pipeline.SecondPass
import RomAnalyzer.Pipeline.LabelCategories
import RomAnalyzer.Lib.Scan
import RomAnalyzer.MutTable.Triplet
import RomAnalyzer.Mode23Bindings.LdiBefore
import RomAnalyzer.Callgraph.ResetVector
import RomAnalyzer.Lib.Moves
import RomAnalyzer.Ghidra.DtcCallSites
import RomAnalyzer.Lib.Words
import RomAnalyzer.Scripts.Declarations
import RomAnalyzer.Ghidra.Overlay
import RomAnalyzer.Callgraph.BraEncoding
import RomAnalyzer.MutTable.ReadAddresses
import RomAnalyzer.DataRefs.MatchOrder
import RomAnalyzer.Lib.JsonText
import RomAnalyzer.AgentEnrich
import RomAnalyzer.AgentEnrich.Rounds
import RomAnalyzer.Scripts.EnrichRound
import RomAnalyzer.Enrich.Reconcile
import RomAnalyzer.Lib.Replace
import RomAnalyzer.Lib.BestSoFar
import RomAnalyzer.Ghidra.Program
import RomAnalyzer.Ghidra.Dump
import RomAnalyzer.Ghidra.SourceComments
import RomAnalyzer.Scripts.EnrichInit
import RomAnalyzer.Scripts.EnrichInit.Rescoring
import RomAnalyzer.Scripts.EnrichInitVars
import RomAnalyzer.Scripts.EnrichInitVars.Rescoring
import RomAnalyzer.AgentEnrich.YieldHistory
import RomAnalyzer.AnnotationFiles.Interrupted
import RomAnalyzer.ObdAnalysis.Dtc
import RomAnalyzer.CanSlots
import RomAnalyzer.Pipeline.CanHandlers
import RomAnalyzer.Ghidra.Fetch
import RomAnalyzer.Ghidra.Domain
import RomAnalyzer.Mode23Bindings.CallSites
import RomAnalyzer.Pipeline.ProjectQueries
import RomAnalyzer.Pipeline.ObdStage
import RomAnalyzer.Scripts.EnrichDecompile
import RomAnalyzer.Callgraph.CopiedRun
import RomAnalyzer.RamSignature.SelfMatch
import RomAnalyzer.Pipeline.CopiedRom
import RomAnalyzer.Lib.Locations
import RomAnalyzer.Pipeline.VerdictTargets
import RomAnalyzer.Pipeline.EnrichedFiles
import RomAnalyzer.Pipeline.EnrichCommand
import RomAnalyzer.Lib.Tally
import RomAnalyzer.Pipeline.MatchReport
import RomAnalyzer.Scripts.AnnotationHistory
import RomAnalyzer.Scripts.SourceTables
import RomAnalyzer.Scripts.AppliedRound
import RomAnalyzer.Pipeline.DescriptionText
