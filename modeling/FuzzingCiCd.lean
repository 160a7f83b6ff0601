import FuzzingCiCd.Executor.Reports
import FuzzingCiCd.Executor.JobHandler
import FuzzingCiCd.Executor.HandlerTrace
import FuzzingCiCd.Executor.HandlerOutcome
import FuzzingCiCd.Executor.TerminalEvents
import FuzzingCiCd.Executor.HandlerRelease
import FuzzingCiCd.Executor.Disclosure
import FuzzingCiCd.Executor.GuardRuns
import FuzzingCiCd.Foundation.PrefixCodes
import FuzzingCiCd.Foundation.Programs
import FuzzingCiCd.Foundation.Pages
import FuzzingCiCd.Foundation.JsonPositions
import FuzzingCiCd.Mutator.Frames
import FuzzingCiCd.Mutator.AflLlmMutator
import FuzzingCiCd.Mutator.Client
import FuzzingCiCd.Mutator.LlmMutatorServer
import FuzzingCiCd.Mutator.Worker
import FuzzingCiCd.Mutator.Framing
import FuzzingCiCd.Integration.EventWire
import FuzzingCiCd.Master.Cancellation
import FuzzingCiCd.Master.Outcome
import FuzzingCiCd.Master.Dependencies
import FuzzingCiCd.Master.Exclusivity
import FuzzingCiCd.Integration.SandboxEnforcement
import FuzzingCiCd.Master.Delivery
import FuzzingCiCd.Integration.TerminalStatus
import FuzzingCiCd.Integration.DuplicateDeliveries
import FuzzingCiCd.Master.Idempotence
import FuzzingCiCd.Master.Convergence
import FuzzingCiCd.Master.StoredStatus
import FuzzingCiCd.Integration.DeploymentGate
import FuzzingCiCd.Master.Consumption
import FuzzingCiCd.Master.ConcurrentUpdates
import FuzzingCiCd.Master.FanIn
import FuzzingCiCd.Master.TriggerIsolation
import FuzzingCiCd.Master.OutboxPublisher
import FuzzingCiCd.Master.EventCursor
import FuzzingCiCd.Master.OpenSearchPoller
import FuzzingCiCd.Master.Polling
import FuzzingCiCd.Master.PipelineService
import FuzzingCiCd.Master.JobParameters
import FuzzingCiCd.Master.LogHistory
import FuzzingCiCd.Master.Redaction
import FuzzingCiCd.Master.GraphValidation
import FuzzingCiCd.Master.StageOrder
import FuzzingCiCd.Master.GraphProgress
import FuzzingCiCd.Master.Watchdog
import FuzzingCiCd.Master.RejectedEvents
import FuzzingCiCd.Master.ProgressEvents
import FuzzingCiCd.Master.JobConditions
import FuzzingCiCd.Foundation.Reading
import FuzzingCiCd.Foundation.Shell
import FuzzingCiCd.Foundation.ShellWeight
import FuzzingCiCd.Foundation.ShellArguments
import FuzzingCiCd.Foundation.Numerals
import FuzzingCiCd.Master.RunEvents
import FuzzingCiCd.Foundation.Base64
import FuzzingCiCd.Executor.SshBashDeployment
import FuzzingCiCd.Executor.ProcessOutput
import FuzzingCiCd.Executor.RelativePaths
import FuzzingCiCd.Executor.BuildSourceSnapshotPreparer
import FuzzingCiCd.Executor.StorageUris
import FuzzingCiCd.Executor.LocalFilesystemStorageBackend
import FuzzingCiCd.Master.TriggerScheduler
import FuzzingCiCd.Master.ScheduledRuns
import FuzzingCiCd.Master.CronFires
import FuzzingCiCd.Master.ArtifactRegistry
import FuzzingCiCd.Executor.KafkaExecutorJobConsumer
import FuzzingCiCd.Foundation.Holes
import FuzzingCiCd.Executor.SecretFrames
import FuzzingCiCd.Executor.SecretSearches
import FuzzingCiCd.Executor.TextRedaction
import FuzzingCiCd.Foundation.Doubles
import FuzzingCiCd.Master.PaginationHelper
import FuzzingCiCd.Executor.NumericParameters
import FuzzingCiCd.Executor.ScriptWorkspacePreparer
import FuzzingCiCd.Executor.StorageCleanup
import FuzzingCiCd.Mutator.AflCustomFuzz
import FuzzingCiCd.Foundation.Commands
import FuzzingCiCd.Mutator.FakeGenerator
import FuzzingCiCd.Master.Confluence
import FuzzingCiCd.Foundation.Transcripts
import FuzzingCiCd.Executor.SshBashDeploymentRunner
import FuzzingCiCd.Master.RunIsolation
import FuzzingCiCd.Executor.GitRepositoryUrlRedactor
