import ColumnFormula.Json.Spelling
import ColumnFormula.Main
import ColumnFormula.Scan.Checked
import ColumnFormula.Scan.Nested
import ColumnFormula.Scan.Reachable
import ColumnFormula.Source.Cutting
import ColumnFormula.Token.Number
import ColumnFormula.Proofs.Scan.Item
import ColumnFormula.Proofs.Scan.Reader
import ColumnFormula.Proofs.Scan.Close
import ColumnFormula.Proofs.Scan.Refinement
import ColumnFormula.Proofs.Text.Strip
import ColumnFormula.Proofs.Scan.Items
import ColumnFormula.Proofs.Scan.Tiling
import ColumnFormula.Proofs.Scan.Accounting
import ColumnFormula.Proofs.Scan.Place
import ColumnFormula.Proofs.Token.Relocation
import ColumnFormula.Proofs.Token.ColumnRef
import ColumnFormula.Proofs.Highlight
import ColumnFormula.Proofs.Scan.Append
import ColumnFormula.Proofs.Scan.Parenthesis
import ColumnFormula.Proofs.Scan.Piece
import ColumnFormula.Proofs.Scan.Stream
import ColumnFormula.Proofs.Json.Number
import ColumnFormula.Proofs.Json.Text
import ColumnFormula.Proofs.Json.Render
import ColumnFormula.Proofs.Document
import ColumnFormula.Proofs.Scan.Join
import ColumnFormula.Proofs.Scan.Written
import ColumnFormula.Proofs.Scan.Replace
import ColumnFormula.Proofs.Scan.Reached
import ColumnFormula.Proofs.Scan.Edit
import ColumnFormula.Proofs.Scan.Insert
import ColumnFormula.Proofs.Scan.Abandon
import ColumnFormula.Proofs.Render
import ColumnFormula.Proofs.Scan.Checked
import ColumnFormula.Proofs.Scan.Search
import ColumnFormula.Proofs.Scan.Nesting
import ColumnFormula.Proofs.Scan.Border
import ColumnFormula.Proofs.Scan.Warning
import ColumnFormula.Proofs.Scan.Extent
import ColumnFormula.Proofs.Command.Word
import ColumnFormula.Proofs.Command.Output
import ColumnFormula.Proofs.Command.Request
import ColumnFormula.Proofs.Command.Input
import ColumnFormula.Proofs.Command.Choice
import ColumnFormula.Proofs.Command.Misuse
import ColumnFormula.Proofs.Document.Field
import ColumnFormula.Proofs.Document.Form
import ColumnFormula.Proofs.Decimal.Rounding
import ColumnFormula.Proofs.Decimal.Number
import ColumnFormula.Proofs.Decimal.Printed
import ColumnFormula.Proofs.Text.Offset
import ColumnFormula.Proofs.Source.Cutting
