/-!
# Text

Two plain questions about texts: whether one stands inside another, and how
its beginning reads.
-/

namespace DotCall.Text

/-- `part` stands somewhere in the given characters, one after the other. -/
def occursIn (part : List Char) : List Char → Bool
  | [] => part.isEmpty
  | c :: rest => part.isPrefixOf (c :: rest) || occursIn part rest

/-- `part` stands somewhere in `text`. -/
def contains (text part : String) : Bool :=
  occursIn part.toList text.toList

/-- The first `n` characters of a text, or all of a shorter one. -/
def beginning (n : Nat) (text : String) : String :=
  String.ofList (text.toList.take n)

end DotCall.Text
