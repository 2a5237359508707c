import RagPlatform.Consistency
import RagPlatform.Quota
import RagPlatform.Resubmission
import RagPlatform.Retries
import RagPlatform.FailureReasons
import RagPlatform.Services.IngestionOutcome
import RagPlatform.Cli
import RagPlatform.SynchronousIngest
import RagPlatform.Redelivery
import RagPlatform.Lib.Likeness
import RagPlatform.Api.Answers
import RagPlatform.Api.Search
import RagPlatform.Api.Usage
import RagPlatform.Isolation.View
import RagPlatform.Isolation.Commit
import RagPlatform.RatelimitLaws
import RagPlatform.Isolation.Calls
import RagPlatform.Isolation.Steps
import RagPlatform.Isolation.Retrieval
import RagPlatform.Isolation.Answers
import RagPlatform.Gateway
import RagPlatform.Isolation.Requests
import RagPlatform.Noninterference
import RagPlatform.Lib.Eval
import RagPlatform.Surroundings
import RagPlatform.BatchUpload
import RagPlatform.Services.AnsweringLaws
import RagPlatform.Billing
import RagPlatform.Grounding
import RagPlatform.Lib.Replay
import RagPlatform.Revocation
import RagPlatform.Lib.Tickets
import RagPlatform.Throttling
import RagPlatform.Lib.TextDecoder
import RagPlatform.Lib.TextDecoderLaws
import RagPlatform.Frontend.Api
import RagPlatform.Frontend.ApiLaws
import RagPlatform.Streaming
import RagPlatform.Lib.Climb
import RagPlatform.Lib.Url
import RagPlatform.Lib.UrlLaws
import RagPlatform.Frontend.Proxy
import RagPlatform.ProxyPaths
import RagPlatform.Lib.Ties
import RagPlatform.Lib.Selection
import RagPlatform.Retrieval.ServiceLaws
import RagPlatform.Retrieval.Permitted
import RagPlatform.Retrieval.Inquiry
import RagPlatform.Retrieval.InquiryLaws
import RagPlatform.SearchTies
import RagPlatform.Refresh
import RagPlatform.Frontend.Session
import RagPlatform.Sessions
import RagPlatform.Ingestion.PackingLaws
import RagPlatform.Ingestion.WordLaws
import RagPlatform.ChunkWindows
import RagPlatform.ChunkBudget
import RagPlatform.TextBudget
import RagPlatform.Provenance
import RagPlatform.Ingestion.Sections
import RagPlatform.HeadingPaths
import RagPlatform.MarkdownText
import RagPlatform.CodeFences
import RagPlatform.HeadingTitles
import RagPlatform.HtmlText
import RagPlatform.StorableText
import RagPlatform.IndexAlignment
import RagPlatform.Lib.Fusion
import RagPlatform.Retrieval.Findings
import RagPlatform.FusionOrder
import RagPlatform.Lib.Framing
import RagPlatform.PromptNumbering
import RagPlatform.Lib.Grouping
import RagPlatform.UsageTotals
import RagPlatform.Lib.Changes
import RagPlatform.StatusStream
import RagPlatform.Lib.Debts
import RagPlatform.BucketExpiry
import RagPlatform.Workability
import RagPlatform.Lib.Replace
import RagPlatform.Observability.Metrics
import RagPlatform.Evals.RunEval
import RagPlatform.Evals.AnswerEval
import RagPlatform.Attendance
import RagPlatform.Llm.Loading
import RagPlatform.Paging
import RagPlatform.Migrations
import RagPlatform.Deduplication
import RagPlatform.Frontend.ChatLaws
import RagPlatform.Conversation
import RagPlatform.Frontend.AnswerText
import RagPlatform.Admission
import RagPlatform.Delegation
import RagPlatform.Erasure
import RagPlatform.Recall
import RagPlatform.Following
import RagPlatform.Draining
