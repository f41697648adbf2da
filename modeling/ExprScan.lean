import ExprScan.Main
import ExprScan.Proofs.Scan.Rounds
import ExprScan.Scan.Lexeme
import ExprScan.Proofs.Scan.Closing
import ExprScan.Proofs.Scan.Lexeme
import ExprScan.Proofs.Scan.Longest
import ExprScan.Proofs.Scan.Tiling
import ExprScan.Proofs.Scan.Layout
import ExprScan.Expression.Automaton
import ExprScan.Proofs.Expression.Automaton
import ExprScan.Proofs.Scan.Partition
import ExprScan.Proofs.Scan.Append
import ExprScan.Scan.Blanking
import ExprScan.Proofs.Scan.Blanking
import ExprScan.Expression.Placement
import ExprScan.Proofs.Expression.Placement
import ExprScan.Proofs.Text.Lines
import ExprScan.Text.Search
import ExprScan.Proofs.Program.Parity
import ExprScan.Proofs.Report.Excerpt
import ExprScan.Text.Return
import ExprScan.Proofs.Program.Returns
import ExprScan.Proofs.Program.Decoding
import ExprScan.Program.Transcript
import ExprScan.Proofs.Program.Transcript
import ExprScan.Proofs.Text.Newlines
import ExprScan.Expression.Extent
import ExprScan.Proofs.Expression.Extent
import ExprScan.Scan.Escape
import ExprScan.Proofs.Scan.Escape
import ExprScan.Proofs.Scan.Unclosed
import ExprScan.Expression.Plain
import ExprScan.Expression.Trace
import ExprScan.Proofs.Expression.Trace
import ExprScan.Proofs.Expression.Plain
import ExprScan.Proofs.Text.Split
import ExprScan.Text.Split
import ExprScan.Expression.Progress
import ExprScan.Proofs.Expression.Progress
