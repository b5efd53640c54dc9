import OpenWop.Js.Text
import OpenWop.Js.Record
import OpenWop.Js.Number
import OpenWop.Js.Json
import OpenWop.Js.Sort
import OpenWop.Js.Stringify
import OpenWop.Js.NumberText
import OpenWop.Core.Delimited
import OpenWop.Js.Quote
import OpenWop.Js.Canonical
import OpenWop.Js.JsonEqual
import OpenWop.Js.Utf8
import OpenWop.Core.HashTree
import OpenWop.Audit.Checkpoint
import OpenWop.Core.Rounding
import OpenWop.Js.NumberLiteral
import OpenWop.Js.JsonGrammar
import OpenWop.Js.ParseIJson
import OpenWop.Js.ParseSound
import OpenWop.Js.ParseComplete
import OpenWop.Js.GrammarUnique
import OpenWop.Js.RoundTrip
import OpenWop.Core.Reachable
import OpenWop.Core.Interleave
import OpenWop.Ledger.Record
import OpenWop.Ledger.Read
import OpenWop.Ledger.Agreement
import OpenWop.Ledger.Workers
import OpenWop.Certification.Profiles
import OpenWop.Certification.Registry
import OpenWop.Certification.FileRecord
import OpenWop.Certification.Derive
import OpenWop.Certification.Rows
import OpenWop.Certification.Witness
import OpenWop.Certification.Groups
import OpenWop.Certification.VerifyV2
import OpenWop.Certification.Findings
import OpenWop.Certification.Floors
import OpenWop.Certification.AgreementV2
import OpenWop.Core.Template
import OpenWop.Chain.Params
import OpenWop.Chain.Expand
import OpenWop.Chain.Deferred
import OpenWop.Chain.Sites
import OpenWop.Chain.Noninterference
import OpenWop.Chain.TokenFree
import OpenWop.Chain.Tree
import OpenWop.Chain.TreeRun
import OpenWop.Chain.TreeCorrect
import OpenWop.Core.DepthFirst
import OpenWop.Core.Plan
import OpenWop.Chain.ComposeNet
import OpenWop.Chain.TreeOrder
import OpenWop.Chain.MintedId
import OpenWop.Chain.Freshness
import OpenWop.Schema.Extract
import OpenWop.Schema.Listing
import OpenWop.Schema.Migrate
import OpenWop.Schema.Monotone
import OpenWop.Otlp.Framing
import OpenWop.Otlp.Agreement
import OpenWop.Otlp.Truncation
import OpenWop.Otlp.Grpc
import OpenWop.Otlp.Canary
import OpenWop.Durability.Watch
import OpenWop.Webhook.Replay
import OpenWop.Webhook.Integrity
import OpenWop.Webhook.Handout
import OpenWop.OptOut.Carried
import OpenWop.SoftSkip.Standing
import OpenWop.FanOut.InFlight
import OpenWop.Content.Locales
import OpenWop.Replay.Refire
import OpenWop.SoftSkip.Precedence
import OpenWop.Bundle.Digest
import OpenWop.Core.Replace
import OpenWop.Bundle.Pairing
import OpenWop.Bundle.Equivalence
import OpenWop.Log.Paging
import OpenWop.Log.Readers
import OpenWop.Identity.BoundId
import OpenWop.Replay.CacheKey
import OpenWop.Replay.CacheKeyFields
import OpenWop.Webhook.Isolation
import OpenWop.Caching.EntityTag
import OpenWop.Caching.Witness
import OpenWop.Caching.Settled
import OpenWop.Caching.Verdict
import OpenWop.Eval.JsonMatch
import OpenWop.Eval.Containment
import OpenWop.Core.Matching
import OpenWop.Eval.Trajectory
import OpenWop.Eval.Augmenting
import OpenWop.Eval.Grading
import OpenWop.Eval.AgentUsage
import OpenWop.Chain.Edges
import OpenWop.Chain.Reads
import OpenWop.Chain.ClosedWorld
import OpenWop.Chain.Filled
import OpenWop.Core.Insertion
import OpenWop.Chain.References
import OpenWop.Chain.Compensation
import OpenWop.Chain.Carrying
import OpenWop.Chain.Renaming
import OpenWop.RequirementIds.Runs
import OpenWop.Js.Base64
import OpenWop.Webhook.Standard
import OpenWop.Webhook.StandardSpec
import OpenWop.Sse.Agreement
import OpenWop.Core.Redaction
import OpenWop.Js.Split
import OpenWop.Js.OwnMembers
import OpenWop.Evidence.Scrubbed
import OpenWop.Core.RoundingBounds
import OpenWop.Js.NumberOrder
import OpenWop.Webhook.RetryWindow
import OpenWop.Webhook.PublicHost
import OpenWop.Core.ScaledQuotient
import OpenWop.Eval.PassRate
import OpenWop.SoftSkip.Blank
import OpenWop.SoftSkip.Offsets
import OpenWop.Codemods.Walk
import OpenWop.Js.IntegerText
import OpenWop.Codemods.EngineVersion
import OpenWop.Codemods.EventCodemap
import OpenWop.OAuth.AsDouble
import OpenWop.Core.History
import OpenWop.OAuth.Exchange
import OpenWop.Webhook.FrontMux
import OpenWop.Js.Writes
import OpenWop.Codemods.PackManifest
import OpenWop.Codemods.PeerFiling
import OpenWop.Codemods.PackManifestKept
import OpenWop.Codemods.DiscoveryDocument
import OpenWop.Codemods.DiscoveryStages
import OpenWop.Codemods.DiscoveryEqual
import OpenWop.Codemods.DiscoveryKept
import OpenWop.Core.WaitsFor
import OpenWop.MockNode.Lock
import OpenWop.Core.LockTable
import OpenWop.MockNode.Exclusion
import OpenWop.Trigger.Double
import OpenWop.Core.OffsetPaging
import OpenWop.Trigger.Answers
import OpenWop.Trigger.Paging
