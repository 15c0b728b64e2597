import Ilang.Main
import Ilang.Proofs.Acceptance
import Ilang.Proofs.Balance
import Ilang.Proofs.Booleans
import Ilang.Proofs.Breaks
import Ilang.Proofs.Closure
import Ilang.Proofs.Decoration
import Ilang.Proofs.Histories
import Ilang.Proofs.Independence
import Ilang.Proofs.Lexing
import Ilang.Proofs.Literals
import Ilang.Proofs.Nesting
import Ilang.Proofs.Preservation
import Ilang.Proofs.Progress
import Ilang.Proofs.Rejection
import Ilang.Proofs.Renaming
import Ilang.Proofs.Renewal
import Ilang.Proofs.Repetition
import Ilang.Proofs.Reprinting
import Ilang.Proofs.Respacing
import Ilang.Proofs.Spacing
import Ilang.Proofs.Storage
import Ilang.Proofs.Strings
