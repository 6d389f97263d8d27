import DotCall.Call.Candidate

/-!
# Choices

A choice is the method that a call stands for together with the adjustments of
the receiver: dereferences, then unsizing, then a borrow.
-/

namespace DotCall

/-- The method that a call stands for and how its receiver is adjusted. It is the result
of a search that has left no assignment behind; to confirm it is to repeat the adjustments
and keep what they assign. -/
structure Choice where
  candidate : Candidate
  /-- number of dereferences -/
  derefs : Nat
  passing : Passing
  /-- the dereferenced receiver is unsized before it is passed -/
  unsizes : Bool
  /-- several impls of the candidate's trait match; which one is called is
  decided once inference has settled -/
  viaTrait : Bool
  deriving DecidableEq

/-- One implicit conversion of the receiver, as the call is later rewritten with it. -/
inductive Adjustment where
  | deref
  | unsize
  | borrow (b : Borrow)
  deriving DecidableEq

/-- The function that is called. -/
inductive Callee where
  /-- a method of an inherent impl -/
  | ofImpl (id : ImplId)
  /-- a method of a trait, and its impl where that is known -/
  | ofTrait (traitId : TraitId) (impl? : Option ImplId)
  deriving DecidableEq

namespace Choice

/-- The adjustments of the receiver, in the order of application: all dereferences first,
then at most one unsizing, then at most one borrow. -/
def adjustments (c : Choice) : List Adjustment :=
  List.replicate c.derefs .deref ++
  (if c.unsizes then [.unsize] else []) ++
  match c.passing with
  | .byValue => []
  | .byBorrow b => [.borrow b]

/-- The function that is called. -/
def callee (c : Choice) : Callee :=
  match c.candidate.standing, c.candidate.origin with
  | .inherent, .impl id => .ofImpl id
  | .extension t, .impl id => .ofTrait t (if c.viaTrait then none else some id)
  | _, .object t | _, .bound t => .ofTrait t none

end Choice

end DotCall
