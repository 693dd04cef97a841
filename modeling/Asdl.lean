import Asdl.Main
import Asdl.Order
import Asdl.Document.Decode
import Asdl.Grammar.Log
import Asdl.Term
import Asdl.Proofs.Json.Embedding
import Asdl.Proofs.Result
import Asdl.Proofs.Document.Decoding
import Asdl.Proofs.Document.Encoding
import Asdl.Proofs.Grammar.Construction
import Asdl.Proofs.Grammar.Types
import Asdl.Proofs.Grammar.Catalogs
import Asdl.Proofs.Grammar.Lookup
import Asdl.Proofs.Tree.Validity
import Asdl.Proofs.Grammar.Permutation
import Asdl.Proofs.Tree.Building
import Asdl.Proofs.Tree.Language
import Asdl.Proofs.Json.Quoting
import Asdl.Proofs.Json.Reading
import Asdl.Proofs.Json.Printing
import Asdl.Proofs.Document.Text
import Asdl.Proofs.Document.Reload
import Asdl.Proofs.Grammar.Rejection
import Asdl.Proofs.Tree.Filling
import Asdl.Proofs.Order
import Asdl.Proofs.Grammar.Coverage
import Asdl.Proofs.Grammar.Groups
import Asdl.Proofs.Grammar.Extension
import Asdl.Proofs.Grammar.Kinds
import Asdl.Proofs.Tree.Replay
import Asdl.Proofs.Tree.Rearrangement
import Asdl.Proofs.Term.Conversion
import Asdl.Proofs.Term.RoundTrip
import Asdl.Proofs.Tree.Defects
import Asdl.Proofs.Document.Defects
import Asdl.Proofs.Document.Mismatch
import Asdl.Proofs.Tree.Growth
import Asdl.Proofs.Tree.Rendering
import Asdl.Proofs.Text.Splitting
import Asdl.Proofs.Text.Lines
import Asdl.Proofs.Declaration
import Asdl.Proofs.Grammar.Listing
import Asdl.Proofs.Grammar.Layout
import Asdl.Proofs.Grammar.Ordering
import Asdl.Proofs.Document.Vocabulary
