/-!
# Diagnostics

A diagnostic is one error: a code, a message, labelled places in the source,
notes, and ranked hints.  Its text lists them in that order, the hints by rank;
hints of equal rank keep the order in which they were added.
-/

namespace DotCall

/-- A range `start..stop` of byte positions in the source. -/
structure Span where
  start : Nat
  stop : Nat
  deriving DecidableEq, Inhabited

/-- The span of code that nobody wrote. -/
def Span.nowhere : Span := ⟨0, 0⟩

/-- A span is shown as `start..stop`. -/
def Span.text (s : Span) : String :=
  s!"{s.start}..{s.stop}"

/-- What went wrong with a method call. -/
inductive ErrorCode where
  /-- no method of the name applies to the receiver -/
  | noMethod
  /-- several methods of the name apply -/
  | severalMethods
  /-- the name belongs to a function without a `self` parameter -/
  | notAMethod
  /-- dereferencing the receiver does not end -/
  | endlessDeref
  deriving DecidableEq

/-- The code as printed: `E2` for type errors, `E9` for broken invariants. -/
def ErrorCode.text : ErrorCode → String
  | .noMethod => "E2010"
  | .severalMethods => "E2011"
  | .notAMethod => "E2012"
  | .endlessDeref => "E9001"

/-- Advice how to mend the error; the lower rank is shown first. -/
structure Hint where
  message : String
  rank : Nat
  deriving DecidableEq

/-- A span with a message that explains it. -/
structure Label where
  span : Span
  message : String
  deriving DecidableEq

/-- One error with all that explains it; the first label marks its place. -/
structure Diagnostic where
  code : ErrorCode
  message : String
  labels : List Label
  notes : List String
  hints : List Hint
  deriving DecidableEq

namespace Diagnostic

/-- Where the error is reported. -/
def place? (d : Diagnostic) : Option Span :=
  d.labels.head?.map (·.span)

/-- The position by which diagnostics are ordered; 0 without a label. -/
def position (d : Diagnostic) : Nat :=
  (d.place?.map (·.start)).getD 0

/-- The hints as they are shown: by rank, equal ranks as added. -/
def rankedHints (d : Diagnostic) : List Hint :=
  d.hints.mergeSort fun a b => decide (a.rank ≤ b.rank)

/-- The lines of a diagnostic after its first one. -/
def details (d : Diagnostic) : List String :=
  d.labels.map (fun l => "  --> " ++ l.span.text ++ ": " ++ l.message) ++
  d.notes.map (fun n => "  = note: " ++ n) ++
  d.rankedHints.map (fun h => "  = help: " ++ h.message)

/-- The printed form of a diagnostic. -/
def text (d : Diagnostic) : String :=
  "\n".intercalate (("error[" ++ d.code.text ++ "]: " ++ d.message) :: d.details)

end Diagnostic

end DotCall
