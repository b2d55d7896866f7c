import EvoCI.Library.Dict
import EvoCI.Library.Run
import EvoCI.Library.Journal
import EvoCI.Library.Durable
import EvoCI.Library.Chat
import EvoCI.Library.Splice
import EvoCI.Library.Climb
import EvoCI.Library.Retry
import EvoCI.Library.Keyed
import EvoCI.Library.Crash
import EvoCI.Text
import EvoCI.Workspace
import EvoCI.Budget
import EvoCI.Trajectory
import EvoCI.ToolLoop
import EvoCI.LoopTrace
import EvoCI.CallRecords
import EvoCI.Spending
import EvoCI.Consumption
import EvoCI.Patch
import EvoCI.Apply
import EvoCI.Resume
import EvoCI.Conflict
import EvoCI.Snapshot
import EvoCI.RoundTrip
import EvoCI.Domain
import EvoCI.Scheduler
import EvoCI.Routing
import EvoCI.Worker
import EvoCI.Recorder
import EvoCI.WriteTools
import EvoCI.Collect
import EvoCI.CarryOver
import EvoCI.ReplaceText
import EvoCI.StagingRuns
import EvoCI.Integration
import EvoCI.Restoring
import EvoCI.Verification
import EvoCI.VerificationRuns
import EvoCI.Graph.State
import EvoCI.Graph.Nodes
import EvoCI.Graph.Run
import EvoCI.Graph.Steps
import EvoCI.Graph.Progress
import EvoCI.Graph.Candidate
import EvoCI.Graph.Approval
import EvoCI.Graph.Success
import EvoCI.Graph.Recovery
import EvoCI.Graph.Termination
import EvoCI.Graph.Resumption
import EvoCI.Graph.Batch
import EvoCI.Graph.Artifacts
import EvoCI.Graph.Rollback
import EvoCI.Graph.Undo
import EvoCI.Graph.Reexecution
import EvoCI.Graph.Scope
import EvoCI.Graph.Baseline
import EvoCI.Graph.CandidateResume
import EvoCI.Graph.SnapshotRuns
import EvoCI.Graph.PatchFile
import EvoCI.Graph.GitReport
import EvoCI.Graph.ReviewBypass
import EvoCI.Capability.Registry
import EvoCI.Capability.Usage
import EvoCI.Capability.Install
import EvoCI.Capability.UpdateFailure
import EvoCI.Capability.RegistryCrash
import EvoCI.Benchmark.CandidatePatch
import EvoCI.Campaign.WriterLock
import EvoCI.Capability.Frame
import EvoCI.Memory.Store
import EvoCI.Memory.Retrieval
import EvoCI.Memory.Selection
import EvoCI.Memory.Preview
import EvoCI.Capability.Recorded
import EvoCI.Learning.Outcome
import EvoCI.Learning.Stages
import EvoCI.Learning.Guard
import EvoCI.Learning.Replay
import EvoCI.Learning.Completion
import EvoCI.Benchmark.Dataset
import EvoCI.Benchmark.Adapter
import EvoCI.Benchmark.Manifest
import EvoCI.Benchmark.Start
import EvoCI.Benchmark.Junit
import EvoCI.Benchmark.Scoring
import EvoCI.Benchmark.Replay
import EvoCI.Benchmark.Runner
import EvoCI.Benchmark.RunnerResume
import EvoCI.Reservation
import EvoCI.Messages
import EvoCI.Capability.Integrity
import EvoCI.Campaign.TreeHash
import EvoCI.Campaign.SkillMerge
import EvoCI.Campaign.MemoryMerge
import EvoCI.Campaign.Rounds
import EvoCI.Campaign.RoundCrash
import EvoCI.Campaign.RoundProgress
import EvoCI.Campaign.RoundGrowth
import EvoCI.Campaign.RoundMemory
import EvoCI.Graph.WorkspaceId
import EvoCI.ToolResults
import EvoCI.Library.JsonText
import EvoCI.Library.JsonWriter
import EvoCI.JsonExtraction
import EvoCI.Capability.Retrieval
import EvoCI.Library.Indexed
import EvoCI.Memory.FullText
import EvoCI.Library.Cut
import EvoCI.Capability.UsageMemory
import EvoCI.Benchmark.FinalChanges
import EvoCI.Learning.Reporting
import EvoCI.Benchmark.LearningMetrics
import EvoCI.Gateway
import EvoCI.Subprocess
import EvoCI.ToolSession
