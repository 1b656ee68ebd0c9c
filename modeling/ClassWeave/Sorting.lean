/-!
# Stable sorting

Insertion sort: of two items that may stand in either order, the first stays in front.
-/

namespace ClassWeave.Sorting

variable {α : Type}

def insert (notAfter : α → α → Bool) (item : α) : List α → List α
  | [] => [item]
  | first :: rest =>
    if notAfter item first then item :: first :: rest else first :: insert notAfter item rest

def sort (notAfter : α → α → Bool) : List α → List α
  | [] => []
  | first :: rest => insert notAfter first (sort notAfter rest)

end ClassWeave.Sorting
