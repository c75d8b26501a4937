import Shakti.Validate
import Shakti.Caps
import Shakti.Lsm
import Shakti.Env
import Shakti.EnvFilter
import Shakti.Identity
import Shakti.Timestamp
import Shakti.Audit
import Shakti.Auth
import Shakti.Session
import Shakti.Policy.Parse
import Shakti.Policy.Authorize
import Shakti.Policy.FirstMatch
import Shakti.Policy.Groups
import Shakti.Policy.Widening
import Shakti.Policy.RoundTrip
import Shakti.Policy.Load
import Shakti.Api
import Shakti.Cli
import Shakti.Exec
import Shakti.Main
import Shakti.Machine
import Shakti.Quiet
import Shakti.ExecGate
import Shakti.PolicyChoice
import Shakti.PolicyFile
import Shakti.PrivilegeDrop
import Shakti.CredentialCache
import Shakti.Keystrokes
import Shakti.LoadedPolicy
import Shakti.Policy.Locality
import Shakti.SkippedFragments
import Shakti.Truncation
import Shakti.AuditLine
import Shakti.AuditTrail
import Shakti.JoinedCommand
import Shakti.Lib.Memory
import Shakti.Policy.Bounds
import Shakti.Policy.ArrayComments
import Shakti.TimestampOnly
import Shakti.RelayStreams
import Shakti.Policy.OriginalMatching
import Shakti.TimestampWindow
import Shakti.Policy.MoreDenies
import Shakti.Policy.Overlap
import Shakti.Policy.WrittenDenies
import Shakti.Policy.QuoteStyle
import Shakti.LintWorstCase
import Shakti.Listing
import Shakti.Lib.Records
import Shakti.Passwd
import Shakti.PasswdLookups
import Shakti.TargetFields
import Shakti.GidList
import Shakti.Evaluation
import Shakti.ArgvRewriting
import Shakti.RelayProgress
import Shakti.LsmStaging
import Shakti.FragmentOrder
import Shakti.Resolution
import Shakti.CliGrammar
import Shakti.PasswordAttempts
import Shakti.CapSets
import Shakti.TimestampConfinement
import Shakti.Numerals
import Shakti.EnvironBlock
import Shakti.Lib.Credentials
import Shakti.Plan
import Shakti.Footprint
import Shakti.Process
import Shakti.Kernel
import Shakti.Terminal
import Shakti.TerminalRun
import Shakti.HandedOver
import Shakti.Descriptors
import Shakti.DropProgress
import Shakti.Lib.Twins
import Shakti.PasswordSecrecy
import Shakti.Alterations
import Shakti.Lib.Pool
import Shakti.EarnedTimestamps
import Shakti.Policy.OriginalPolicy
import Shakti.Children
import Shakti.Lib.Forking
import Shakti.SuExchange
import Shakti.Lib.Streams
import Shakti.SessionRecord
