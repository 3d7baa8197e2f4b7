import LibSigma.Library.Codec
import LibSigma.Library.Buffer
import LibSigma.Library.Checked
import LibSigma.Library.Stamp
import LibSigma.Matcher.Text
import LibSigma.Matcher.Eval
import LibSigma.Library.Rpn
import LibSigma.Matcher.Denotation
import LibSigma.Matcher.RoundTrip
import LibSigma.Matcher.RuleMatch
import LibSigma.Library.Chain
import LibSigma.Library.Agree
import LibSigma.Matcher.Calls
import LibSigma.Matcher.Cidr
import LibSigma.Matcher.Gating
import LibSigma.Matcher.TeddyExact
import LibSigma.Library.Leftmost
import LibSigma.Matcher.Memmem
import LibSigma.Library.Emits
import LibSigma.Library.LazyRpn
import LibSigma.Matcher.FieldReads
import LibSigma.Matcher.BucketFields
import LibSigma.Matcher.Lossless
import LibSigma.Matcher.FieldTeddy
import LibSigma.Library.Struct
import LibSigma.Reference.Builder
import LibSigma.Reference.Emitter
import LibSigma.Corr.EventCount
import LibSigma.Corr.Temporal
import LibSigma.Corr.Ordered
import LibSigma.Corr.Scratch
import LibSigma.Corr.EventTime
import LibSigma.Corr.Merge
import LibSigma.Corr.Order
import LibSigma.Library.Forgetting
import LibSigma.Library.Positions
import LibSigma.Corr.Machine
import LibSigma.Corr.Isolation
import LibSigma.Corr.LocalOnly
import LibSigma.Corr.Wire
import LibSigma.Corr.Artifact
import LibSigma.Library.StableSort
import LibSigma.Library.Reports
import LibSigma.Corr.Replay
import LibSigma.Corr.Watermark
import LibSigma.Corr.Conditions
import LibSigma.Matcher.Rollback
import LibSigma.Library.Saturation
import LibSigma.Matcher.Numbers
import LibSigma.Library.Crc
import LibSigma.Matcher.Integrity
import LibSigma.Library.Slots
import LibSigma.Corr.Observed
import LibSigma.Corr.Beacon
import LibSigma.Corr.Aggregate
import LibSigma.Library.Keeps
import LibSigma.Library.Firsts
import LibSigma.Matcher.Effects
import LibSigma.Matcher.Examined
import LibSigma.Matcher.Stats
import LibSigma.Matcher.FieldCalls
import LibSigma.Corr.Overwrites
import LibSigma.Corr.MergedCount
import LibSigma.Corr.Considered
import LibSigma.Library.LruTable
import LibSigma.Corr.Dictionary
import LibSigma.Corr.Owner
import LibSigma.Library.Sharding
import LibSigma.Corr.Cluster
import LibSigma.Corr.Window
import LibSigma.Library.BoundedQueue
import LibSigma.Corr.Pending
import LibSigma.Library.Gregorian
import LibSigma.Library.Strtod
import LibSigma.Time.Civil
import LibSigma.Time.Parse
import LibSigma.Time.Stamp
import LibSigma.Time.Renderings
import LibSigma.Time.Documented
import LibSigma.Reference.Source
import LibSigma.Reference.Meaning
import LibSigma.Reference.Artifacts
import LibSigma.Reference.Routes
import LibSigma.Library.History
import LibSigma.Corr.Workers
import LibSigma.Corr.Schedules
import LibSigma.Library.Pieces
import LibSigma.Cli.Input
import LibSigma.Cli.Run
import LibSigma.Library.Network
import LibSigma.Corr.Delivery
import LibSigma.Corr.Ledger
import LibSigma.Corr.Linked
import LibSigma.Corr.Admission
import LibSigma.Corr.Product
import LibSigma.Library.Months
import LibSigma.Time.Yearless
import LibSigma.Corr.Sweep
import LibSigma.Matcher.Removals
