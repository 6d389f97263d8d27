import DotCall.Declaration

/-!
# Ancestry of traits

A trait entails its parents, theirs, and so on.  These ancestors are collected
level by level, nearer ones first, each once.  The declared graph may have
cycles, repeated edges and parents that were never declared.
-/

namespace DotCall

/-- The elements of a list that were not seen before, each once. -/
def unseen {α : Type} [DecidableEq α] (seen : List α) : List α → List α
  | [] => []
  | x :: rest =>
    if x ∈ seen then unseen seen rest
    else x :: unseen (x :: seen) rest

/-- What is reached from the elements of `queue`, in the order of distance.
`seen` holds all that ever entered the queue, so nothing enters it twice, and
`n` bounds how many elements may leave it. -/
def reach {α : Type} [DecidableEq α] (next : α → List α) :
    Nat → (seen queue : List α) → List α
  | 0, _, _ => []
  | _ + 1, _, [] => []
  | n + 1, seen, x :: queue =>
    let found := unseen seen (next x)
    x :: reach next n (found ++ seen) (queue ++ found)

namespace Declarations

/-- The parents that a trait declares; none when it was never declared. -/
def parents (d : Declarations) (t : TraitId) : List TraitId :=
  ((d.trait? t).map (·.parents)).getD []

/-- Number of declared edges to parents.  Every ancestor is the end of one. -/
def parentEdges (d : Declarations) : Nat :=
  d.traits.toList.foldr (fun decl count => decl.parents.length + count) 0

/-- The ancestors of a trait, nearer ones first, without the trait itself. -/
def ancestors (d : Declarations) (t : TraitId) : List TraitId :=
  let direct := unseen [t] (d.parents t)
  reach d.parents d.parentEdges (direct ++ [t]) direct

/-- A trait and its ancestors. -/
def lineage (d : Declarations) (t : TraitId) : List TraitId :=
  t :: d.ancestors t

/-- The trait `lower` is `upper` or has it as an ancestor. -/
def entails (d : Declarations) (lower upper : TraitId) : Bool :=
  decide (lower = upper ∨ upper ∈ d.ancestors lower)

end Declarations

end DotCall
