import CodeGraph.Command.Interchange
import CodeGraph.Extract.Interchange
import CodeGraph.Graph.Address
import CodeGraph.Graph.Settings
import CodeGraph.LanguageServer.Interchange
import CodeGraph.Main
import CodeGraph.Markup.Interchange
import CodeGraph.Proofs.Accounts
import CodeGraph.Proofs.Cancellation
import CodeGraph.Proofs.Closure
import CodeGraph.Proofs.CommandOrder
import CodeGraph.Proofs.Conservation
import CodeGraph.Proofs.ElementTree
import CodeGraph.Proofs.FailedRun
import CodeGraph.Proofs.FileHistory
import CodeGraph.Proofs.Filtering
import CodeGraph.Proofs.Grouping
import CodeGraph.Proofs.Imports
import CodeGraph.Proofs.IncrementalRun
import CodeGraph.Proofs.KeysApart
import CodeGraph.Proofs.Lockstep
import CodeGraph.Proofs.MarkedFiles
import CodeGraph.Proofs.MemberPaths
import CodeGraph.Proofs.Modifiers
import CodeGraph.Proofs.Normalization
import CodeGraph.Proofs.Packages
import CodeGraph.Proofs.Positions
import CodeGraph.Proofs.References
import CodeGraph.Proofs.RoundTrip
import CodeGraph.Proofs.SharedKeys
import CodeGraph.Proofs.StyleRules
import CodeGraph.Proofs.Transactions
import CodeGraph.Proofs.Transcript
import CodeGraph.Proofs.TypeNames
import CodeGraph.Proofs.WordSearch
import CodeGraph.Rehearsal.Attempts
import CodeGraph.Rehearsal.Server
import CodeGraph.Run.Interchange
import CodeGraph.Text.Hex
