import DotCall.Proofs.InternedTexts
import DotCall.Proofs.ReachedStores
import DotCall.Proofs.ShownErrors

/-!
# Which errors are reported

Every message about a failed call is written around the text of its receiver, and apart
from it contains only fixed words and the name of the method.  So the message mentions
the error type whenever the receiver does, and an outbox that drops consequences stays
as it is (`report_of_hasError`).

The other way round the outbox relies on names: where no name contains an angle bracket,
a failed call is dropped as a consequence exactly when the error type occurs in its
receiver or shows there by the name of an argument (`counted_iff`).  The second case is
an error that nobody has reported before and that gets lost (`genuine_error_lost`).
-/

namespace DotCall

open Text TypeStore

namespace SymbolTable

/-- No text of the table contains an angle bracket. -/
def Unbracketed (table : SymbolTable) : Prop :=
  ∀ shard ∈ table.shards, ∀ text ∈ shard.texts, Plain text.toList

/-- The text is made of letters, digits and underscores. -/
def IsWord (text : String) : Prop := ∀ c ∈ text.toList, c.isAlphanum ∨ c = '_'

instance (text : String) : Decidable (IsWord text) :=
  decidable_of_iff (text.toList.all fun c => c.isAlphanum || c == '_') (by simp [IsWord])

/-- All texts of the table are words. -/
def Identifiers (table : SymbolTable) : Prop :=
  ∀ shard ∈ table.shards, ∀ text ∈ shard.texts, IsWord text

variable {table : SymbolTable}

/-- Neither bracket is a letter, a digit or an underscore. -/
theorem Identifiers.unbracketed (h : table.Identifiers) : table.Unbracketed := by
  intro shard hshard text htext
  constructor
  · intro hc
    exact absurd (h shard hshard text htext _ hc) (by decide)
  · intro hc
    exact absurd (h shard hshard text htext _ hc) (by decide)

/-- The empty text counts as an identifier. -/
theorem new_identifiers : new.Identifiers := by
  intro shard hshard text htext
  have hset : shard ∈ (Vector.replicate 16 .empty).set 0 (SymbolShard.empty.push "") := hshard
  rcases Vector.mem_or_eq_of_mem_set hset with hmem | rfl
  · obtain ⟨-, rfl⟩ := Vector.mem_replicate.mp hmem
    simp [SymbolShard.empty] at htext
  · obtain rfl : text = "" := by simpa [SymbolShard.push, SymbolShard.empty] using htext
    intro c hc
    simp at hc

/-- A table of identifiers stays one when another is interned. -/
theorem Identifiers.intern (h : table.Identifiers) {text : String} (htext : IsWord text) :
    (table.intern text).2.Identifiers := by
  rw [SymbolTable.intern]
  split
  · exact h
  · intro shard hshard t ht
    have hset : shard ∈ table.shards.set (shardOf text)
      (table.shards[shardOf text].push text) := hshard
    rcases Vector.mem_or_eq_of_mem_set hset with hmem | rfl
    · exact h shard hmem t ht
    · rcases Array.mem_push.mp ht with ht | rfl
      · exact h _ (Vector.getElem_mem (shardOf text).isLt) t ht
      · exact htext

/-- A symbol reads as a text of the table or as `<unknown>`. -/
theorem Unbracketed.lacks_text (h : table.Unbracketed) (n : Symbol) :
    Lacks errorWord (table.text n).toList := by
  rw [text]
  cases htext : table.shards[n.shard].texts[n.place]? with
  | none =>
      have hunknown : "<unknown>".toList = mark "unknown".toList := by decide
      rw [Option.getD_none, hunknown]
      exact ⟨.mark _, by decide⟩
  | some text =>
      have hmem : text ∈ table.shards[n.shard].texts := Array.mem_of_getElem? htext
      exact .of_plain (h _ (Vector.getElem_mem n.shard.isLt) text hmem)

/-- A name among fixed words. -/
theorem Unbracketed.lacks_quoted (h : table.Unbracketed) {before after : String}
    (hbefore : Plain before.toList) (n : Symbol) (hafter : Plain after.toList) :
    Lacks errorWord (before ++ table.text n ++ after).toList := by
  rw [String.toList_append, String.toList_append]
  exact .append errorWord_plain (.append errorWord_plain (.of_plain hbefore) (h.lacks_text n))
    (.of_plain hafter)

/-- Where names have no brackets, nothing that a type prints without them has any: names,
numbers and marks of variables. -/
theorem Unbracketed.spelling_harmless (h : table.Unbracketed) (s : TypeStore) :
    (s.spelling table).Harmless where
  name := h.lacks_text
  var id := by
    have hmark : Plain "?".toList := by decide
    change Lacks errorWord (s.varText table id).toList
    rw [varText]
    cases s.binding id with
    | free number name =>
        cases name with
        | none =>
            rw [String.toList_append]
            exact .append errorWord_plain (.of_plain hmark) (.of_plain (digits_plain number))
        | some name => exact h.lacks_text name
    | linked target => exact .of_plain hmark
    | generic name => exact .of_plain hmark
  generic id := by
    have hmark : Plain "?".toList := by decide
    change Lacks errorWord (s.genericText table id).toList
    rw [genericText]
    cases s.binding id with
    | generic name => exact h.lacks_text name
    | free number name => exact .of_plain hmark
    | linked target => exact .of_plain hmark

end SymbolTable

namespace Writer

variable {w : Writer} {o : Outbox}

/-- A message is written around the text of the receiver; with names that lack the error
type, what is written around it lacks the error type too. -/
theorem message_eq (w : Writer) (span : Span) (f : Failure) :
    ∃ before after : String,
      (w.diagnostic span f).message = before ++ w.typeText f.receiver ++ after ∧
        (w.names.Unbracketed → Lacks errorWord before.toList ∧ Lacks errorWord after.toList) := by
  have hquote : Plain "`".toList := by decide
  cases f with
  | noMethod method receiver tried functions outOfScope =>
      have hfirst : Plain "no method named `".toList := by decide
      have hthen : Plain "` found for type `".toList := by decide
      exact ⟨_, _, rfl, fun hnames =>
        ⟨hnames.lacks_quoted hfirst method hthen, .of_plain hquote⟩⟩
  | ambiguous method receiver candidates =>
      have hfirst : Plain "multiple applicable items named `".toList := by decide
      have hthen : Plain "` for type `".toList := by decide
      exact ⟨_, _, rfl, fun hnames =>
        ⟨hnames.lacks_quoted hfirst method hthen, .of_plain hquote⟩⟩
  | endlessDeref receiver ty cycle =>
      have hfirst : Plain "auto-dereferencing `".toList := by decide
      have hthen : Plain "` does not terminate".toList := by decide
      exact ⟨_, _, rfl, fun _ => ⟨.of_plain hfirst, .of_plain hthen⟩⟩

/-- An error counts as a consequence when the mark is in its message. -/
theorem isConsequence_iff {d : Diagnostic} :
    d.isConsequence = true ↔ mark errorWord <:+: d.message.toList := by
  rw [Diagnostic.isConsequence, contains_iff, errorTypeText_toList]

/-- An error in the receiver shows in the message, so the failure is a consequence. -/
theorem isConsequence_of_hasError {span : Span} {f : Failure}
    (h : (w.store.meaning f.receiver).HasError) : (w.diagnostic span f).isConsequence = true := by
  obtain ⟨before, after, heq, -⟩ := w.message_eq span f
  have hreceiver : mark errorWord <:+: (w.typeText f.receiver).toList := h.marked _
  rw [isConsequence_iff, heq, String.toList_append, String.toList_append]
  exact hreceiver.trans ⟨before.toList, after.toList, rfl⟩

/-- **A failed call is a consequence** exactly when its receiver contains the error type
or shows it by a name. -/
theorem isConsequence_diagnostic_iff (hnames : w.names.Unbracketed) {span : Span} {f : Failure} :
    (w.diagnostic span f).isConsequence = true ↔ (w.store.meaning f.receiver).HasError ∨
      (w.store.meaning f.receiver).ShowsError (w.store.spelling w.names) := by
  have hsp := hnames.spelling_harmless w.store
  obtain ⟨before, after, heq, haround⟩ := w.message_eq span f
  obtain ⟨hbefore, hafter⟩ := haround hnames
  have hreceiver : Bracketed (w.typeText f.receiver).toList := Tree.bracketed_text hsp _
  rw [isConsequence_iff, heq, String.toList_append, String.toList_append,
    Lacks.mark_between errorWord_plain hbefore hreceiver hafter]
  exact Tree.marked_iff hsp _

/-- **Errors about the error type are not reported.**  Where consequences are dropped, a
failed call on a receiver in which the error type occurs leaves the outbox as it is. -/
theorem report_of_hasError (hdrop : o.rules.dropConsequences = true) (span : Span) (f : Failure)
    (h : (w.store.meaning f.receiver).HasError) : w.report o span f = ({}, o) := by
  have hrejects : o.rejects (w.diagnostic span f) = true := by
    simp [Outbox.rejects_eq, hdrop, isConsequence_of_hasError h]
  exact Prod.ext rfl (by rw [report, Outbox.emit_snd, if_pos hrejects])

/-- Offered to an empty outbox, an error is kept unless it is a consequence. -/
theorem count_report_empty (w : Writer) (span : Span) (f : Failure) :
    (w.report (.empty {}) span f).2.count =
      if (w.diagnostic span f).isConsequence then 0 else 1 := by
  have hrejects : (Outbox.empty {}).rejects (w.diagnostic span f) =
      (w.diagnostic span f).isConsequence := by
    simp [Outbox.rejects_eq, Outbox.isFull, Outbox.empty]
  rw [report, Outbox.emit_snd, hrejects]
  split <;> rfl

/-- A store with `Pair<v, error>` behind a borrow, in which `v` is linked to `i32`. -/
def pairWithError : Writer :=
  let actions : List Action :=
    [.var, .unify ⟨64⟩ (.ofPrimitive .i32), .nominal .blank [⟨64⟩, .error], .ref .shared ⟨65⟩]
  ⟨actions.foldl (fun s a => (a.perform.run s).2) new, .new, Declarations.empty.database⟩

/-- Once an error about `v` is in the outbox, one about the borrow is offered in vain. -/
theorem report_of_hasError_nested :
    let w := pairWithError
    let o := (w.report (.empty {}) .nowhere (.noMethod .blank ⟨64⟩ [⟨64⟩] [] [])).2
    o.count = 1 ∧ w.report o .nowhere (.noMethod .blank ⟨66⟩ [⟨66⟩] [] []) = ({}, o) := by
  intro w o
  have hvalues : (w.store.meaning ⟨64⟩, w.store.meaning ⟨66⟩) =
    (.atom (.prim .i32), .app (.ref .shared) [.app (.nominal .blank)
      [.atom (.prim .i32), .atom (.prim .error)]]) := by cbv
  obtain ⟨hlinked, hnested⟩ := Prod.mk.inj hvalues
  have hnames : w.names.Unbracketed := SymbolTable.new_identifiers.unbracketed
  have hcount : o.count = 1 := by
    rw [count_report_empty, if_neg]
    rw [isConsequence_diagnostic_iff hnames, Failure.receiver, hlinked, not_or]
    exact ⟨by simp [Tree.hasError_atom, Atom.IsError], Tree.not_showsError_atom⟩
  have hrules : o.rules = {} := by
    simp only [o, report, Outbox.emit_snd]
    split <;> rfl
  refine ⟨hcount, report_of_hasError (hrules ▸ rfl) .nowhere _ ?_⟩
  rw [Failure.receiver, hnested]
  simp [Tree.hasError_app, Tree.hasError_atom, Atom.IsError]

/-- **Which errors are counted.**  Where no name contains an angle bracket, a failed call is
dropped as a consequence exactly when the error type occurs in its receiver or shows there
by the name of an argument, and reported to an empty outbox it is counted in all other
cases. -/
theorem counted_iff (hnames : w.names.Unbracketed) (span : Span) (f : Failure) :
    let tree := w.store.meaning f.receiver
    let shown := tree.HasError ∨ tree.ShowsError (w.store.spelling w.names)
    ((w.diagnostic span f).isConsequence = true ↔ shown) ∧
      ((w.report (.empty {}) span f).2.count = 1 ↔ ¬ shown) := by
  intro tree shown
  have hconsequence : (w.diagnostic span f).isConsequence = true ↔ shown :=
    isConsequence_diagnostic_iff hnames
  refine ⟨hconsequence, ?_⟩
  rw [count_report_empty, ← hconsequence]
  cases (w.diagnostic span f).isConsequence <;> simp

/-- A nominal type around another one, which has no arguments and comes first among its own. -/
theorem meaning_around (outer inner : Symbol) {rest : List TypeId} (hrest : ∀ t ∈ rest, new.Has t) :
    let first := (nominalType inner []).run new
    let around := (nominalType outer (first.1 :: rest)).run first.2
    around.2.meaning around.1 =
      .app (.nominal outer) (.app (.nominal inner) [] :: rest.map new.meaning) := by
  intro first around
  have hnone : ∀ a ∈ ([] : List TypeId), new.Has a := by simp
  obtain ⟨hfirst, hq, -, hhas, -⟩ := Reached.new.nominalType_run inner hnone
  have hmeaning := Reached.new.meaning_nominalType inner hnone
  have hargs : ∀ a ∈ first.1 :: rest, first.2.Has a :=
    List.forall_mem_cons.mpr ⟨hhas, fun t ht => hq.has (hrest t ht)⟩
  rw [hfirst.meaning_nominalType outer hargs, List.map_cons, hmeaning, List.map_nil,
    List.map_congr_left fun t ht => hq.meaning_eq (hrest t ht)]

/-- A table with the names `Foo` and `error`, the type `Foo<error, i32>`, and its store. -/
def fooBeside : Writer × TypeId :=
  let foo := SymbolTable.new.intern "Foo"
  let error := foo.2.intern "error"
  let inner := (nominalType error.1 []).run new
  let outer := (nominalType foo.1 [inner.1, .ofPrimitive .i32]).run inner.2
  (⟨outer.2, error.2, Declarations.empty.database⟩, outer.1)

/-- Beside another argument the nominal type `error` is not taken for the error type. -/
theorem counted_beside :
    let w := fooBeside.1
    let f : Failure := .noMethod .blank fooBeside.2 [fooBeside.2] [] []
    w.names.Identifiers ∧ (w.report (.empty {}) .nowhere f).2.count = 1 := by
  have hnames : fooBeside.1.names.Identifiers :=
    (SymbolTable.new_identifiers.intern (by decide)).intern (by decide)
  have hprim : new.meaning (.ofPrimitive .i32) = .atom (.prim .i32) := by cbv
  have hmeaning : fooBeside.1.store.meaning fooBeside.2 = _ :=
    meaning_around _ _ (List.forall_mem_singleton.mpr (by decide))
  refine ⟨hnames, (counted_iff hnames.unbracketed .nowhere _).2.mpr ?_⟩
  rw [Failure.receiver, hmeaning, List.map_singleton, hprim, not_or]
  constructor
  · simp [Tree.hasError_app, Tree.hasError_atom, Atom.IsError]
  · simp [Tree.showsError_app, Tree.not_showsError_atom]

/-- A table with the names `Foo` and `error`, the type `Foo<error>`, and its store. -/
def fooError : Writer × TypeId :=
  let foo := SymbolTable.new.intern "Foo"
  let error := foo.2.intern "error"
  let inner := (nominalType error.1 []).run new
  let outer := (nominalType foo.1 [inner.1]).run inner.2
  (⟨outer.2, error.2, Declarations.empty.database⟩, outer.1)

/-- That the type `Foo<error>` has no method is reported as a consequence and lost, though
its argument is a type like any other. -/
theorem genuine_error_lost :
    let w := fooError.1
    let f : Failure := .noMethod .blank fooError.2 [fooError.2] [] []
    w.names.Identifiers ∧ ¬ (w.store.meaning f.receiver).HasError ∧
      (w.diagnostic .nowhere f).isConsequence = true ∧
      (w.report (.empty {}) .nowhere f).2.count = 0 := by
  intro w f
  have hnames : w.names.Identifiers :=
    (SymbolTable.new_identifiers.intern (by decide)).intern (by decide)
  have hmeaning : w.store.meaning f.receiver = _ := meaning_around _ _ (List.forall_mem_nil _)
  have hconsequence : (w.diagnostic .nowhere f).isConsequence = true := by
    rw [isConsequence_diagnostic_iff hnames.unbracketed, hmeaning]
    refine .inr (.here ?_)
    rw [Tree.text_app]
    exact (SymbolTable.text_intern_intern "Foo" "error").2
  refine ⟨hnames, ?_, hconsequence, ?_⟩
  · rw [hmeaning]
    simp [Tree.hasError_app]
  · rw [count_report_empty, if_pos hconsequence]

end Writer

end DotCall
