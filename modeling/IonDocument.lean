import IonDocument.Kind
import IonDocument.Symbol.Table
import IonDocument.Binary64
import IonDocument.Binary64.Shortest
import IonDocument.Decimal
import IonDocument.Timestamp.Calendar
import IonDocument.Text.Base64
import IonDocument.Text.Escape
import IonDocument.Text.Symbol
import IonDocument.Timestamp
import IonDocument.Element
import IonDocument.Element.Children
import IonDocument.Element.Fields
import IonDocument.Element.Text
import IonDocument.Cursor
import IonDocument.Dialogue
import IonDocument.Element.Size
import IonDocument.Loading
import IonDocument.Reader
import IonDocument.Walk
import IonDocument.Proofs.Dialogue.Ends
import IonDocument.Proofs.Walk.Follows
import IonDocument.Proofs.Loading.Copy
import IonDocument.Proofs.Reader.Pull
import IonDocument.Proofs.Reader.Queue
import IonDocument.Proofs.Walk.Faulty
import IonDocument.Proofs.Reader.Account
import IonDocument.Proofs.Text.Numeral
import IonDocument.Proofs.Text.Base64
import IonDocument.Proofs.Text.Escape
import IonDocument.Proofs.Text.Symbol
import IonDocument.Proofs.Binary64.Shortest
import IonDocument.Proofs.Timestamp
import IonDocument.Proofs.Element.Form
import IonDocument.Proofs.Scalar
import IonDocument.Proofs.Element.Text
import IonDocument.Proofs.Dialogue.Simulation
import IonDocument.Proofs.Reader.Simulation
import IonDocument.Proofs.Element.Height
import IonDocument.Proofs.Loading.Limit
import IonDocument.Proofs.Reader.Limited
import IonDocument.Proofs.Dialogue.Trace
import IonDocument.Proofs.Loading.Protocol
import IonDocument.Proofs.Loading.Manners
import IonDocument.Proofs.Loading.Failure
import IonDocument.Proofs.Element.Node
import IonDocument.Proofs.Element.Normal
import IonDocument.Proofs.Reader.Finality
import IonDocument.Proofs.Cursor.Calls
import IonDocument.Proofs.Walk.Stack
import IonDocument.Proofs.Walk.Nesting
import IonDocument.Proofs.Walk.Forward
import IonDocument.Proofs.Reader.Lookahead
import IonDocument.Proofs.Dialogue.Lockstep
import IonDocument.Proofs.Loading.Comparison
import IonDocument.Proofs.Loading.Reach
import IonDocument.Proofs.Element.Preorder
import IonDocument.Proofs.Cursor.Counting
import IonDocument.Proofs.Loading.Landing
import IonDocument.Proofs.Element.Calls
import IonDocument.Proofs.Loading.Pass
import IonDocument.Proofs.Walk.Visit
import IonDocument.Proofs.Walk.Answers
import IonDocument.Proofs.Symbol.Table
import IonDocument.Proofs.Symbol.Equality
import IonDocument.Proofs.Text.Quoted
import IonDocument.Proofs.Text.Scan
import IonDocument.Proofs.Element.Scan
import IonDocument.Proofs.Element.Contents
import IonDocument.Proofs.Reader.Contents
