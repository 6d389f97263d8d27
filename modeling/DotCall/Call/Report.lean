import DotCall.Call.Failure
import DotCall.Diagnostic.Outbox

/-!
# Reports of failed calls

A failure is reported as a diagnostic at the call: what was sought and where,
what was found instead, and how the call could be written.
-/

namespace DotCall

/-- What is needed to write about types: the store, in which links are followed, the
names, and the declarations, from which come the names of traits and the places of impls.
-/
structure Writer where
  store : TypeStore
  names : SymbolTable
  db : Database

namespace Writer

/-- A type as it is written. -/
def typeText (w : Writer) (t : TypeId) : String := w.store.typeText w.names t

/-- A trait as it is written. -/
def traitText (w : Writer) (t : TraitId) : String := w.names.text (w.db.nameOf t)

/-- The path that names a type in a call: a nominal type by its name, any other
in angle brackets. -/
def pathOf (w : Writer) (t : TypeId) : String :=
  let t := w.store.root t
  match w.store.node t with
  | .app (.nominal name) _ => w.names.text name
  | _ => "<" ++ w.typeText t ++ ">"

/-- The call of a candidate's method with all that is implicit written out. -/
def explicitCall (w : Writer) (c : Candidate) (receiver : String) : String :=
  let path :=
    match c.trait? with
    | some t => w.traitText t
    | none => w.pathOf c.self
  path ++ "::" ++ w.names.text c.method ++ "(" ++ c.passing.text ++ receiver ++ ")"

/-- The path that names the place of a definition: its trait, or the self type of an
inherent impl. -/
def originPath (w : Writer) : Origin → String
  | .impl id =>
    match w.db.impl? id with
    | none => "<unknown>"
    | some decl =>
      match decl.trait? with
      | some t => w.traitText t
      | none => w.pathOf decl.self
  | .object t | .bound t => w.traitText t

/-- The place of a candidate's definition in words. -/
def originPhrase (w : Writer) (c : Candidate) : String :=
  match c.trait?, c.origin with
  | some t, _ => "the trait `" ++ w.traitText t ++ "`"
  | none, .impl _ => "an impl for the type `" ++ w.typeText c.self ++ "`"
  | none, _ => "a trait bound"

/-- The rank of the hint at a position of its list; ranks end at 255. -/
def rankAt (position : Nat) : Nat := min position 255

/-- Hints in the order of a list. Printing sorts hints by rank, so the rank of each is its
position, as far as ranks go. -/
def hintEach {α : Type} (message : α → Nat → String) (items : List α) : List Hint :=
  items.zipIdx.map fun (item, position) => ⟨message item position, rankAt position⟩

/-- Report that no method applies. A note lists the types that were tried when there were
several, and the hints name first the functions that are no methods and then the traits to
import. -/
def noMethod (w : Writer) (span : Span) (code : ErrorCode) (method : Symbol)
    (receiver : TypeId) (tried : List TypeId) (functions : List Origin)
    (outOfScope : List TraitId) : Diagnostic :=
  let name := w.names.text method
  let receiverText := w.typeText receiver
  let triedNotes :=
    if tried.length > 1 then
      ["searched the types " ++
        ", ".intercalate (tried.map fun t => "`" ++ w.typeText t ++ "`")]
    else []
  let functionNotes :=
    if functions.isEmpty then []
    else ["found associated functions with this name; to be called as a method a function " ++
      "needs a `self` parameter"]
  { code := code
    message := "no method named `" ++ name ++ "` found for type `" ++ receiverText ++ "`"
    labels := [⟨span, "method not found in `" ++ receiverText ++ "`"⟩]
    notes := triedNotes ++ functionNotes
    hints :=
      hintEach (fun origin _ =>
        "use associated function syntax: `" ++ w.originPath origin ++ "::" ++ name ++
          "(..)`") functions ++
      hintEach (fun t _ =>
        "trait `" ++ w.traitText t ++ "` provides `" ++ name ++
          "`; consider importing it") outOfScope }

/-- Report that several definitions apply. For each there is a note that says where it
stands and a hint that writes the call of it out in full. -/
def ambiguous (w : Writer) (span : Span) (method : Symbol) (receiver : TypeId)
    (candidates : List Candidate) : Diagnostic :=
  let name := w.names.text method
  { code := .severalMethods
    message := "multiple applicable items named `" ++ name ++ "` for type `" ++
      w.typeText receiver ++ "`"
    labels := [⟨span, "multiple `" ++ name ++ "` found"⟩]
    notes := candidates.zipIdx.map fun (c, position) =>
      "candidate #" ++ toString (position + 1) ++ " is defined in " ++ w.originPhrase c
    hints := hintEach (fun c position =>
      "disambiguate the method for candidate #" ++ toString (position + 1) ++ ": `" ++
        w.explicitCall c "receiver" ++ "`") candidates }

/-- Report that the receiver can be dereferenced without end. -/
def endlessDeref (w : Writer) (span : Span) (receiver ty : TypeId) (cycle : Bool) :
    Diagnostic where
  code := .endlessDeref
  message := "auto-dereferencing `" ++ w.typeText receiver ++ "` does not terminate"
  labels := [⟨span, "method receiver"⟩]
  notes :=
    [if cycle then "`" ++ w.typeText ty ++ "` dereferences back to itself"
     else "reached the dereference limit at `" ++ w.typeText ty ++ "`"]
  hints := []

/-- The diagnostic of a failed call at `span`. -/
def diagnostic (w : Writer) (span : Span) (failure : Failure) : Diagnostic :=
  match failure with
  | .noMethod method receiver tried functions outOfScope =>
    w.noMethod span failure.code method receiver tried functions outOfScope
  | .ambiguous method receiver candidates => w.ambiguous span method receiver candidates
  | .endlessDeref receiver ty cycle => w.endlessDeref span receiver ty cycle

/-- Put the diagnostic of a failed call into an outbox. -/
def report (w : Writer) (o : Outbox) (span : Span) (failure : Failure) : Reported × Outbox :=
  o.emit (w.diagnostic span failure)

end Writer

end DotCall
