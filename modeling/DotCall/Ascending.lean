/-!
# Ascending lists

Sets of identifiers are kept as lists in strictly ascending order, so a set
has one form only.
-/

namespace DotCall.Ascending

variable {α : Type} [DecidableEq α] [LT α] [DecidableLT α]

/-- Put an element at its place; one already present is not repeated. -/
def insert (x : α) : List α → List α
  | [] => [x]
  | y :: rest =>
    if x < y then x :: y :: rest
    else if x = y then y :: rest
    else y :: insert x rest

/-- The ascending list with the elements of the given one. -/
def ofList (xs : List α) : List α :=
  xs.foldr insert []

end DotCall.Ascending
