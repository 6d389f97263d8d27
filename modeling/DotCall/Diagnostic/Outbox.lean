import DotCall.Diagnostic
import DotCall.Text

/-!
# The outbox

The outbox collects errors until they are taken out.  It caps their number,
drops an error that is only the consequence of an earlier one (its message
mentions the error type), and drops a repeat of the last accepted error: same
position, same beginning of the message.  What is taken out comes in the order
of positions, errors at one position in the order of acceptance.

Beginnings are compared by a digest, and the digest is a parameter: errors with
different beginnings count as repeats when it does not tell them apart.  `offer`
and `emit` compare the beginnings as they are.
-/

namespace DotCall

/-- What the outbox drops. -/
structure OutboxRules where
  /-- the most errors held at once; 0 sets no limit -/
  capacity : Nat := 10
  /-- drop errors that mention the error type -/
  dropConsequences : Bool := true
  /-- drop a repeat of the last accepted error -/
  dropRepeats : Bool := true
  deriving DecidableEq

/-- Pending diagnostics, oldest first, with their number and what a repeat of
the last accepted one would have in common with it. -/
structure Outbox where
  rules : OutboxRules
  pending : List Diagnostic
  count : Nat
  last? : Option (Nat × String)
  deriving DecidableEq

/-- Evidence that an error was reported. -/
structure Reported where
  deriving DecidableEq

namespace Reported

/-- How the evidence is shown. -/
def text (_ : Reported) : String := "error(s) emitted"

/-- A positive number of errors is evidence. -/
def ofCount? (count : Nat) : Option Reported :=
  if count > 0 then some {} else none

end Reported

namespace Diagnostic

/-- How many characters of two messages are compared to tell a repeat. -/
def comparedLength : Nat := 30

/-- The text by which the error type is shown in messages. -/
def errorTypeText : String := "<error>"

/-- What a repeat has in common with the error it repeats. -/
def fingerprint (d : Diagnostic) : Nat × String :=
  (d.position, Text.beginning comparedLength d.message)

/-- The position of a diagnostic and the digest of the beginning of its message. -/
def imprint {κ : Type} (digest : String → κ) (d : Diagnostic) : Nat × κ :=
  (d.fingerprint.1, digest d.fingerprint.2)

/-- An error about the error type is the consequence of an earlier failure. -/
def isConsequence (d : Diagnostic) : Bool :=
  Text.contains d.message errorTypeText

end Diagnostic

namespace Outbox

/-- An outbox that holds nothing. -/
def empty (rules : OutboxRules) : Outbox :=
  ⟨rules, [], 0, none⟩

/-- The capacity is reached. -/
def isFull (o : Outbox) : Bool :=
  decide (o.rules.capacity > 0 ∧ o.count ≥ o.rules.capacity)

section Digests

variable {κ : Type} (digest : String → κ) (o : Outbox)

/-- What is left of the last accepted error when only the digest of its beginning is kept. -/
def memory : Option (Nat × κ) :=
  o.last?.map fun p => (p.1, digest p.2)

variable [DecidableEq κ] (d : Diagnostic)

/-- The diagnostic is one that the outbox drops. -/
def rejectsBy : Bool :=
  o.isFull ||
  (o.rules.dropConsequences && d.isConsequence) ||
  (o.rules.dropRepeats && decide (o.memory digest = some (d.imprint digest)))

/-- Offer a diagnostic; the answer says whether it was accepted. -/
def offerBy : Bool × Outbox :=
  if o.rejectsBy digest d then (false, o)
  else
    (true, { o with
      pending := o.pending ++ [d]
      count := o.count + 1
      last? := some d.fingerprint })

/-- Offer a diagnostic and receive evidence of the report, whether or not it
was dropped. -/
def emitBy : Reported × Outbox :=
  ({}, (o.offerBy digest d).2)

end Digests

/-- The outbox drops the diagnostic when it compares beginnings as they are. -/
def rejects (o : Outbox) (d : Diagnostic) : Bool := o.rejectsBy id d

/-- As `offerBy`, where a repeat has the same beginning. -/
def offer (o : Outbox) (d : Diagnostic) : Bool × Outbox := o.offerBy id d

/-- As `emitBy`, where a repeat has the same beginning. -/
def emit (o : Outbox) (d : Diagnostic) : Reported × Outbox := o.emitBy id d

theorem rejects_eq (o : Outbox) (d : Diagnostic) : o.rejects d =
    (o.isFull || (o.rules.dropConsequences && d.isConsequence) ||
      (o.rules.dropRepeats && decide (o.last? = some d.fingerprint))) := by
  simp [rejects, rejectsBy, memory, Diagnostic.imprint]

/-- A diagnostic that is not dropped comes last and is remembered. -/
theorem emit_snd (o : Outbox) (d : Diagnostic) : (o.emit d).2 =
    if o.rejects d then o
    else { o with
      pending := o.pending ++ [d]
      count := o.count + 1
      last? := some d.fingerprint } := by
  rw [emit, emitBy, offerBy, rejects]
  split <;> rfl

/-- Evidence that some error is pending. -/
def evidence? (o : Outbox) : Option Reported :=
  Reported.ofCount? o.count

/-- The pending diagnostics stand in the order of their positions as they are. -/
def inOrder (o : Outbox) : Bool :=
  (o.pending.zip o.pending.tail).all fun (a, b) => decide (a.position ≤ b.position)

/-- Take out the pending diagnostics by position and start afresh; they are
only sorted when they have to be. -/
def takeAll (o : Outbox) : List Diagnostic × Outbox :=
  let taken :=
    if o.inOrder then o.pending
    else o.pending.mergeSort fun a b => decide (a.position ≤ b.position)
  (taken, empty o.rules)

end Outbox

end DotCall
