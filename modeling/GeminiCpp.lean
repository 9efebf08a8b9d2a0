import GeminiCpp.Wire.Encode
import GeminiCpp.Wire.Decode
import GeminiCpp.Wire.Returns
import GeminiCpp.Wire.Echo
import GeminiCpp.Sse.Tokens
import GeminiCpp.Client.Stream
import GeminiCpp.Chat.Dialogue
import GeminiCpp.Chat.Rounds
import GeminiCpp.Chat.Cancel
import GeminiCpp.Chat.Echo
import GeminiCpp.Eval.Report
import GeminiCpp.Chat.Contained
import GeminiCpp.Cli.CommandLine
import GeminiCpp.Logging.Records
import GeminiCpp.Eval.Selection
import GeminiCpp.Eval.FenceRoundTrip
import GeminiCpp.Eval.CommonMark
import GeminiCpp.Eval.Cutoff
import GeminiCpp.Eval.RepairPrompt
import GeminiCpp.Eval.Cap
import GeminiCpp.Wire.Integers
import GeminiCpp.Eval.Task
import GeminiCpp.Tasks.Duration.Exact
import GeminiCpp.Tasks.Semver.Compare
import GeminiCpp.Eval.Markdown
import GeminiCpp.Eval.Timeout
import GeminiCpp.Eval.Repair
import GeminiCpp.Merge.Pieces
import GeminiCpp.Merge.Cuts
import GeminiCpp.Client.Calls
import GeminiCpp.Lib.Interleaving
import GeminiCpp.Sse.RoundTrip
import GeminiCpp.Wire.RoundTrip
import GeminiCpp.Client.Attempts
import GeminiCpp.Client.Metrics
import GeminiCpp.Client.Tally
import GeminiCpp.Chat.NonEmpty
import GeminiCpp.Eval.CodeExtract
import GeminiCpp.Eval.RunTask
import GeminiCpp.Eval.Run
import GeminiCpp.Sse.Event
import GeminiCpp.Client.Agreement
import GeminiCpp.Eval.Marker
import GeminiCpp.Sse.Stop
import GeminiCpp.Client.Hints
import GeminiCpp.Merge.Interleaved
import GeminiCpp.Merge.Latest
import GeminiCpp.Wire.Skips
import GeminiCpp.Client.PageUrl
import GeminiCpp.Calculator.Parser
import GeminiCpp.Calculator.Grammar
import GeminiCpp.Calculator.Steps
import GeminiCpp.Calculator.Tokens
import GeminiCpp.Calculator.Sound
import GeminiCpp.Calculator.Complete
import GeminiCpp.Calculator.Evaluate
import GeminiCpp.Calculator.Depth
import GeminiCpp.Eval.Fences
import GeminiCpp.Lib.ThreeWay
import GeminiCpp.Tasks.LruCache
import GeminiCpp.Tasks.SpscQueue.Fifo
import GeminiCpp.Tasks.SpscQueue.Size
import GeminiCpp.Tasks.SpscQueue.Wrap
import GeminiCpp.Tasks.ThreadPool
import GeminiCpp.Tasks.TokenBucket.Basic
import GeminiCpp.Tasks.TokenBucket.Rate
import GeminiCpp.Tasks.TokenBucket.Wait
import GeminiCpp.CurlTransport
import GeminiCpp.CurlTransport.Received
import GeminiCpp.CurlTransport.Refused
import GeminiCpp.Tasks.ThreadPool.Condition
import GeminiCpp.Tasks.ThreadPool.Wakeups
import GeminiCpp.Client.Effects
import GeminiCpp.Apps.Console
import GeminiCpp.Chat.Effects
import GeminiCpp.Client.StreamText
import GeminiCpp.Apps.Chat
import GeminiCpp.Apps.Conversation
import GeminiCpp.Cli.Numbers
import GeminiCpp.Apps.Commands
import GeminiCpp.Apps.Reports
import GeminiCpp.Apps.Crashes
