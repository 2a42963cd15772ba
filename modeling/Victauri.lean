import Victauri.Library.Run
import Victauri.Library.Program
import Victauri.Library.Ring
import Victauri.Core.Json
import Victauri.Core.Event
import Victauri.Core.Recording
import Victauri.Core.Recording.Ledger
import Victauri.Core.Recording.Window
import Victauri.Core.Recording.Import
import Victauri.Core.Recording.System
import Victauri.Core.Recording.Readers
import Victauri.Core.Recording.Generations
import Victauri.Plugin.Bridge
import Victauri.Plugin.Bridge.Dispatch
import Victauri.Library.Condensation
import Victauri.Plugin.Database.Tarjan
import Victauri.Plugin.Database.DeepestChain
import Victauri.Plugin.Database.ScanSql
import Victauri.Plugin.Database.ScanSql.Lockstep
import Victauri.Plugin.Database.ScanSql.Agreement
import Victauri.Plugin.Database.ScanSql.Statements
import Victauri.Plugin.Database.TableMentions
import Victauri.Plugin.Database.TableMentions.Select
import Victauri.Core.Json.Text
import Victauri.Plugin.Page.Outcome
import Victauri.Plugin.Mcp.PageJson
import Victauri.Plugin.Mcp.Envelope
import Victauri.Core.Json.Reader
import Victauri.Core.Json.Printer
import Victauri.Plugin.Mcp.RoundTrip
import Victauri.Plugin.Mcp.Unwrap
import Victauri.Plugin.Mcp.EvalOutcome
import Victauri.Plugin.Mcp.EvalSafety
import Victauri.Library.CssSyntax
import Victauri.Library.SqliteTokens
import Victauri.Plugin.Mcp.Css
import Victauri.Plugin.Mcp.Css.Reading
import Victauri.Plugin.Mcp.Css.Lockstep
import Victauri.Plugin.Mcp.Css.Sanitize
import Victauri.Core.Recording.Replica
import Victauri.Core.Verification
import Victauri.Core.Verification.Positions
import Victauri.Core.Verification.Compare
import Victauri.Plugin.Mcp.BackendLogTools
import Victauri.Plugin.Mcp.BackendLogTools.Probing
import Victauri.Plugin.BackendLogs
import Victauri.Plugin.BackendLogs.History
import Victauri.Plugin.BackendLogs.Paging
import Victauri.Plugin.BackendLogs.Waiting
import Victauri.Plugin.BackendLogs.ConsoleCapture
import Victauri.Plugin.BackendLogs.ConsoleCapture.Records
import Victauri.Plugin.BackendLogs.ConsoleCapture.Following
import Victauri.Core.RateLimiter
import Victauri.Core.RateLimiter.Accounting
import Victauri.Cli.Run
import Victauri.Cli.Run.Lines
import Victauri.Cli.Run.Capturing
import Victauri.Cli.Logs
import Victauri.Cli.Logs.Reads
import Victauri.Cli.Logs.Following
import Victauri.Cli.Bridge
import Victauri.Cli.Bridge.Replies
import Victauri.Cli.Bridge.Backends
import Victauri.Cli.Bridge.Recovery
import Victauri.Test.Visual
import Victauri.Test.Visual.Counting
import Victauri.Test.Discovery
import Victauri.Library.Glob
import Victauri.Plugin.Globs
import Victauri.Plugin.Globs.Greedy
import Victauri.Library.Utf16
import Victauri.Plugin.Globs.Agreement
import Victauri.Plugin.Globs.Resuming
import Victauri.Test.Discovery.Endpoint
import Victauri.Plugin.PendingEvals
import Victauri.Plugin.PendingEvals.Interleavings
import Victauri.Watchdog
import Victauri.Watchdog.Rounds
import Victauri.Plugin.FaultRegistry
import Victauri.Plugin.FaultRegistry.Rules
import Victauri.Plugin.Screencast
import Victauri.Plugin.Screencast.Ownership
import Victauri.Cli.Bridge.Backends
import Victauri.Library.Xml
import Victauri.Library.Xml.Reading
import Victauri.Test.Reporting
import Victauri.Test.Reporting.Reading
import Victauri.Library.Utf8.Encoding
import Victauri.Cli.RustCode
import Victauri.Cli.RustCode.Offsets
import Victauri.Cli.RustCode.Tokens
import Victauri.Cli.RustCode.Lengths
import Victauri.Cli.RustCode.Lexing
import Victauri.Cli.RustCode.Blanking
import Victauri.Library.Lines
import Victauri.Cli.Patch
import Victauri.Cli.RustCode.Inside
import Victauri.Cli.Patch.Inserting
import Victauri.Library.FileTree
import Victauri.Cli.InsideProject
import Victauri.Cli.InsideProject.Safety
import Victauri.Plugin.Mcp.PageJson.Bytes
import Victauri.Plugin.Mcp.PageJson.Escapes
import Victauri.Plugin.Mcp.PageJson.Pieces
import Victauri.Plugin.Mcp.PageJson.Slicing
import Victauri.Plugin.Mcp.PageJson.Sanitizing
import Victauri.Library.Suffixes
import Victauri.Plugin.Redaction
import Victauri.Plugin.Redaction.Members
import Victauri.Core.Verification.NumberTexts
import Victauri.Library.Binary64
import Victauri.Core.Assertions
import Victauri.Core.Assertions.Equality
import Victauri.Core.Assertions.Order
import Victauri.Library.Base64
import Victauri.Plugin.Database.QueryRows
import Victauri.Plugin.Database.QueryRows.Exact
import Victauri.Cli.Jsonc
import Victauri.Cli.Jsonc.Offsets
import Victauri.Cli.Jsonc.Offsets
import Victauri.Cli.Jsonc.Grammar
import Victauri.Cli.Jsonc.Strict
import Victauri.Library.FileTree.Walks
import Victauri.Plugin.Mcp.ContainedPaths
import Victauri.Library.FileTree.Regions
import Victauri.Plugin.Mcp.ContainedPaths.Oracle
import Victauri.Plugin.Mcp.ContainedPaths.Leaving
import Victauri.Library.RustText
import Victauri.Core.Codegen
import Victauri.Core.Codegen.Escaping
import Victauri.Core.Codegen.Inert
import Victauri.Core.Localhost
import Victauri.Library.Utf8.Prefixes
import Victauri.Plugin.BackendLogs.FormatBounded
import Victauri.Library.JsText
import Victauri.Plugin.Mcp.JsString
import Victauri.Core.RefusalLog
import Victauri.Core.RefusalLog.Accounting
import Victauri.Core.Verification.Ghosts
import Victauri.Plugin.Mcp.GhostReport
import Victauri.Plugin.Contracts
import Victauri.Plugin.Contracts.Differences
import Victauri.Plugin.Contracts.Reports
import Victauri.Library.WeightedRing
import Victauri.Core.EventLog
import Victauri.Plugin.EventBus
import Victauri.Core.RateLimiter.Credits
import Victauri.Test.Terminal
import Victauri.Cli.Logs.TerminalSafe
import Victauri.Library.BufferWrites
import Victauri.Plugin.Filmstrip
import Victauri.Plugin.Filmstrip.Placement
import Victauri.Core.Codegen.Identifier
import Victauri.Plugin.Database.QueryRows.ColumnKeys
import Victauri.Plugin.Database.QueryRows.Document
import Victauri.Library.Separated
import Victauri.Plugin.Database.QueryRows.Content
import Victauri.Plugin.Database.QueryRows.Losses
import Victauri.Plugin.Database.QueryRows.Lossless
import Victauri.Plugin.Drain.Once
import Victauri.Plugin.Mcp.Server.Isolation
import Victauri.Plugin.Mcp.Authz.Tightening
import Victauri.Plugin.Mcp.Hardening
import Victauri.Plugin.Screenshot.Capturing
