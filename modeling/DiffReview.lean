import DiffReview.Diff.Changes
import DiffReview.Diff.Chunks
import DiffReview.Diff.GitSections
import DiffReview.Diff.HeaderOnly
import DiffReview.Diff.HeaderStyles
import DiffReview.Diff.Lines
import DiffReview.Diff.Numbering
import DiffReview.Diff.Positions
import DiffReview.Diff.Rejections
import DiffReview.Diff.Render
import DiffReview.Diff.Replacements
import DiffReview.Diff.RoundTrip
import DiffReview.Diff.Scan
import DiffReview.Diff.Sections
import DiffReview.Diff.Slices
import DiffReview.Diff.StrayLines
import DiffReview.Diff.Texts
import DiffReview.Lib.Blocks
import DiffReview.Lib.Comments
import DiffReview.Lib.Json
import DiffReview.Lib.Lease
import DiffReview.Lib.Liveness
import DiffReview.Lib.Raise
import DiffReview.Lib.Regex
import DiffReview.Lib.RegexText
import DiffReview.Lib.Str
import DiffReview.Lib.Table
import DiffReview.Lib.Transition
import DiffReview.Review.EmissionOrder
import DiffReview.Review.FileOrder
import DiffReview.Review.LlmReview
import DiffReview.Review.MockHits
import DiffReview.Review.MockIds
import DiffReview.Review.MockReview
import DiffReview.Review.Ordering
import DiffReview.Review.Prompts
import DiffReview.Review.Rules
import DiffReview.Review.SwallowedCatch
import DiffReview.Service.Admission
import DiffReview.Service.Agreement
import DiffReview.Service.Authentication
import DiffReview.Service.Bounds
import DiffReview.Service.Cache
import DiffReview.Service.CacheIdentity
import DiffReview.Service.Calls
import DiffReview.Service.ClientErrors
import DiffReview.Service.Coherence
import DiffReview.Service.Drain
import DiffReview.Service.ErrorReplies
import DiffReview.Service.Failures
import DiffReview.Service.Idempotency
import DiffReview.Service.Integrity
import DiffReview.Service.Joined
import DiffReview.Service.Ledger
import DiffReview.Service.Lifecycle
import DiffReview.Service.Liveness
import DiffReview.Service.Logs
import DiffReview.Service.MockFailures
import DiffReview.Service.Order
import DiffReview.Service.Orphans
import DiffReview.Service.Polling
import DiffReview.Service.Progress
import DiffReview.Service.RateLimit
import DiffReview.Service.Reconnect
import DiffReview.Service.Refinement
import DiffReview.Service.Replay
import DiffReview.Service.RequestHash
import DiffReview.Service.Results
import DiffReview.Service.Retries
import DiffReview.Service.Server
import DiffReview.Service.Stream
import DiffReview.Service.Submissions
import DiffReview.Service.Transactions
import DiffReview.Service.Waiting
import DiffReview.Service.Workers
import DiffReview.Spec.Calls
import DiffReview.Spec.Chunker
import DiffReview.Spec.Errors
import DiffReview.Spec.Faults
import DiffReview.Spec.Gate
import DiffReview.Spec.Jobs
import DiffReview.Spec.Lifespan
import DiffReview.Spec.Llm
import DiffReview.Spec.Mock
import DiffReview.Spec.Models
import DiffReview.Spec.Parser
import DiffReview.Spec.Payload
import DiffReview.Spec.RateLimit
import DiffReview.Spec.Responses
import DiffReview.Spec.Retries
import DiffReview.Spec.Rules
import DiffReview.Spec.Schemas
import DiffReview.Spec.Server
import DiffReview.Spec.Stream
import DiffReview.Spec.System
import DiffReview.Spec.Worker
