import RagLeap.Agents.Agent
import RagLeap.Agents.Delegate
import RagLeap.Agents.DelegationBudget
import RagLeap.Agents.DriveRule
import RagLeap.Agents.NativeReply
import RagLeap.Agents.PromptFence
import RagLeap.Agents.ResumeRace
import RagLeap.Agents.RunLife
import RagLeap.Agents.Statements
import RagLeap.Core.ActionPlan
import RagLeap.Core.AgentLoop
import RagLeap.Core.AgentTaint
import RagLeap.Core.AgentWakeup
import RagLeap.Core.AnswerStream
import RagLeap.Core.Approval
import RagLeap.Core.ApprovalDelivery
import RagLeap.Core.ApprovalInbox
import RagLeap.Core.ApprovalRace
import RagLeap.Core.AuthThrottle
import RagLeap.Core.Autonomy
import RagLeap.Core.Budget
import RagLeap.Core.Chat
import RagLeap.Core.Chunker
import RagLeap.Core.ClientId
import RagLeap.Core.CronInterval
import RagLeap.Core.CronWeekday
import RagLeap.Core.EmailPlan
import RagLeap.Core.EmployeeMemory
import RagLeap.Core.FolderComplete
import RagLeap.Core.FolderConverge
import RagLeap.Core.FolderIngest
import RagLeap.Core.FolderPlan
import RagLeap.Core.FolderRemoval
import RagLeap.Core.FolderSafety
import RagLeap.Core.LoopRule
import RagLeap.Core.McpClient
import RagLeap.Core.PageFetch
import RagLeap.Core.PageText
import RagLeap.Core.PinnedFetch
import RagLeap.Core.ProactiveTriggers
import RagLeap.Core.PromptFence
import RagLeap.Core.Retrieval
import RagLeap.Core.RunTable
import RagLeap.Core.SchedulerLeader
import RagLeap.Core.Sensitivity
import RagLeap.Core.Settings
import RagLeap.Core.SettingsUpdate
import RagLeap.Core.Statements
import RagLeap.Core.Supervisor
import RagLeap.Core.ThrottleBound
import RagLeap.Core.Usage
import RagLeap.Core.UsageRoles
import RagLeap.Foundations.Attempt
import RagLeap.Foundations.Base64
import RagLeap.Foundations.BigEndian
import RagLeap.Foundations.Binary64
import RagLeap.Foundations.CommonBlocks
import RagLeap.Foundations.Consume
import RagLeap.Foundations.CrLf
import RagLeap.Foundations.Decimal
import RagLeap.Foundations.Dict
import RagLeap.Foundations.Durable
import RagLeap.Foundations.EditDistance
import RagLeap.Foundations.Fence
import RagLeap.Foundations.FilterText
import RagLeap.Foundations.FirstFit
import RagLeap.Foundations.Generator
import RagLeap.Foundations.JavaText
import RagLeap.Foundations.Json
import RagLeap.Foundations.JsonBurden
import RagLeap.Foundations.JsonCut
import RagLeap.Foundations.JsonDumps
import RagLeap.Foundations.JsonParts
import RagLeap.Foundations.JsonRaw
import RagLeap.Foundations.JsonRoundTrip
import RagLeap.Foundations.JsonSplice
import RagLeap.Foundations.JsonText
import RagLeap.Foundations.JsonValue
import RagLeap.Foundations.Lines
import RagLeap.Foundations.LinkTree
import RagLeap.Foundations.Lru
import RagLeap.Foundations.NumberWords
import RagLeap.Foundations.Numeral
import RagLeap.Foundations.Pool
import RagLeap.Foundations.PosixPath
import RagLeap.Foundations.Prog
import RagLeap.Foundations.PyString
import RagLeap.Foundations.Raising
import RagLeap.Foundations.Regex
import RagLeap.Foundations.Scan
import RagLeap.Foundations.Segments
import RagLeap.Foundations.Separated
import RagLeap.Foundations.SessionLock
import RagLeap.Foundations.Split
import RagLeap.Foundations.StableSort
import RagLeap.Foundations.Steps
import RagLeap.Foundations.StringLiteral
import RagLeap.Foundations.Substitution
import RagLeap.Foundations.Tables
import RagLeap.Foundations.Task
import RagLeap.Foundations.Text
import RagLeap.Foundations.Toml
import RagLeap.Foundations.Topological
import RagLeap.Foundations.Utf8
import RagLeap.Foundations.Windows
import RagLeap.Foundations.Words
import RagLeap.Graph.CaseVariants
import RagLeap.Graph.CompositeKey
import RagLeap.Graph.Dedup
import RagLeap.Graph.EdgeWeights
import RagLeap.Graph.Extraction
import RagLeap.Graph.Index
import RagLeap.Graph.Migrations
import RagLeap.Graph.NameLookup
import RagLeap.Graph.Resolve
import RagLeap.Graph.Retry
import RagLeap.Graph.SequenceMatch
import RagLeap.Graph.Upsert
import RagLeap.Integrations.EventStream
import RagLeap.Integrations.HeaderSchema
import RagLeap.Integrations.HeaderValue
import RagLeap.Integrations.Mcp
import RagLeap.Integrations.McpPolicy
import RagLeap.Integrations.Mongo
import RagLeap.Memory.AuditedStore
import RagLeap.Memory.Isolation
import RagLeap.Memory.Noninterference
import RagLeap.Memory.Store
import RagLeap.Memory.Supersession
import RagLeap.Rag.Archive
import RagLeap.Rag.ChunkCover
import RagLeap.Rag.ChunkerPort
import RagLeap.Rag.DocumentDelete
import RagLeap.Rag.EmbeddingCache
import RagLeap.Rag.FaissBackend
import RagLeap.Rag.FaissPort
import RagLeap.Rag.Generation
import RagLeap.Rag.HybridRetrieval
import RagLeap.Rag.Ingest
import RagLeap.Rag.MetadataFilter
import RagLeap.Rag.Mime
import RagLeap.Rag.MimeCompose
import RagLeap.Rag.MimeLines
import RagLeap.Rag.MimeRoundTrip
import RagLeap.Rag.PartialIngest
import RagLeap.Rag.QueryRewrite
import RagLeap.Rag.RankFusion
import RagLeap.Rag.Resp
import RagLeap.Rag.RespSession
import RagLeap.Rag.Rtf
import RagLeap.Rag.RtfRoundTrip
import RagLeap.Rag.RtfTokens
import RagLeap.Rag.Sidecar
import RagLeap.Rag.Subtitle
import RagLeap.Rag.VectorBackend
import RagLeap.Rag.VectorStore
import RagLeap.Sandbox.Demux
import RagLeap.Sandbox.Grants
import RagLeap.Sandbox.Listing
import RagLeap.Sandbox.Reader
import RagLeap.Sandbox.Stager
import RagLeap.Sandbox.StagerArea
import RagLeap.Sandbox.StagerScan
import RagLeap.Security.AuditAppend
import RagLeap.Security.AuditLog
import RagLeap.Security.AuditRecords
import RagLeap.Security.AuditTamper
import RagLeap.Security.Redact
import RagLeap.Security.Scope
import RagLeap.Security.ScopeKey
import RagLeap.Tools.Schema
import RagLeap.Tools.Toolkit
import RagLeap.Voice.Call
import RagLeap.Voice.DependencyOrder
import RagLeap.Voice.Fetch
import RagLeap.Voice.LicenceGate
import RagLeap.Voice.Licences
import RagLeap.Voice.Locks
import RagLeap.Voice.Manifest
import RagLeap.Voice.Metrics
import RagLeap.Voice.NumbersEn
import RagLeap.Voice.NumbersTr
import RagLeap.Voice.Pull
import RagLeap.Voice.PullRace
import RagLeap.Voice.VerifyDir
