import Recast.Main
import Recast.Proofs.Units
import Recast.Proofs.Regroup
import Recast.Proofs.Buckets
import Recast.Proofs.MergePass
import Recast.Proofs.Pieces
import Recast.Proofs.Emission
import Recast.Proofs.Untyped
import Recast.Proofs.Agreement
import Recast.Proofs.Hints
import Recast.Proofs.Recut
import Recast.Proofs.Lexing
import Recast.Proofs.TypeText
import Recast.Proofs.Cancellation
import Recast.Proofs.Members
import Recast.Proofs.Settled
import Recast.Proofs.Spelling
import Recast.Proofs.Dumps
import Recast.Proofs.Selection
import Recast.Proofs.Places
import Recast.Proofs.Changes
import Recast.Proofs.TypeFiles
import Recast.Proofs.Commented
import Recast.Proofs.Sections
import Recast.Proofs.ProgramDumps
import Recast.Proofs.PassOrder
import Recast.Proofs.Misbound
import Recast.Proofs.Resolving
import Recast.Proofs.Literals
import Recast.Proofs.Accesses
import Recast.Proofs.BodyText
import Recast.Proofs.Slices
