import DotCall.Call.Report
import DotCall.Proofs.InternedTexts

/-!
# Which failures are taken for repeats

An outbox tells a repeat by the position and the first thirty characters of its message.
The message of a failed call begins with fixed words, and only what is left of the thirty
characters after them tells two failures at one place apart (`readsAlike_iff`).

When no method applies, thirteen characters are left for the name of the method and what
follows it, so long names may count as the same (`take_closed_eq_iff`).  When several
apply, the fixed words are longer than thirty characters: whatever their names, two such
failures at one place are taken for the same, and the second is lost
(`different_failures_merged`).
-/

namespace DotCall

namespace Text

variable {n : Nat} {before x y : String}

/-- Texts begin alike when their first characters are the same ones. -/
theorem beginning_eq_iff :
    beginning n x = beginning n y ↔ x.toList.take n = y.toList.take n := by
  rw [beginning, beginning, String.ofList_inj]

/-- After common first words that are compared as a whole, the rest decides. -/
theorem beginning_append_eq_iff (h : before.length ≤ n) :
    beginning n (before ++ x) = beginning n (before ++ y) ↔
      beginning (n - before.length) x = beginning (n - before.length) y := by
  rw [← String.length_toList] at h ⊢
  simp only [beginning_eq_iff, String.toList_append, List.take_append, List.take_of_length_le h,
    List.append_cancel_left_eq]

/-- First words that are long enough are all that is compared. -/
theorem beginning_append_of_le (h : n ≤ before.length) :
    beginning n (before ++ x) = beginning n before := by
  rw [← String.length_toList] at h
  rw [beginning_eq_iff, String.toList_append, List.take_append_of_le_length h]

/-- Different texts that a character closes, which occurs in neither, begin alike only as
far as both of them reach. -/
theorem take_closed_eq_iff {n : Nat} {c : Char} {x y r r' : List Char} (hx : c ∉ x) (hy : c ∉ y)
    (hne : x ≠ y) :
    (x ++ c :: r).take n = (y ++ c :: r').take n ↔
      n ≤ x.length ∧ n ≤ y.length ∧ x.take n = y.take n := by
  induction n generalizing x y with
  | zero => simp
  | succ n ih =>
      cases x with
      | nil =>
          cases y with
          | nil => exact absurd rfl hne
          | cons b y =>
              have hb : c ≠ b := fun heq => hy (heq ▸ List.mem_cons_self)
              simp [hb]
      | cons a x =>
          cases y with
          | nil =>
              have ha : a ≠ c := fun heq => hx (heq ▸ List.mem_cons_self)
              simp [ha]
          | cons b y =>
              by_cases hab : a = b
              · subst hab
                have hrest := ih (fun h => hx (List.mem_cons_of_mem a h))
                  (fun h => hy (List.mem_cons_of_mem a h)) fun heq => hne (heq ▸ rfl)
                simpa using hrest
              · simp [hab]

end Text

namespace Writer

open Text

variable {w w' : Writer} {o : Outbox} {span : Span} {f f' : Failure}

/-- What the report that no method applies says after its first words. -/
def namedText (w : Writer) (method : Symbol) (receiver : TypeId) : String :=
  w.names.text method ++ "` found for type `" ++ w.typeText receiver ++ "`"

/-- The messages of two failures cannot be told apart by the characters compared: of the
thirty, the fixed first words leave thirteen, none, and ten. -/
def ReadsAlike (w w' : Writer) : Failure → Failure → Prop
  | .noMethod method receiver _ _ _, .noMethod method' receiver' _ _ _ =>
      beginning 13 (w.namedText method receiver) = beginning 13 (w'.namedText method' receiver')
  | .ambiguous _ _ _, .ambiguous _ _ _ => True
  | .endlessDeref receiver _ _, .endlessDeref receiver' _ _ =>
      beginning 10 (w.typeText receiver ++ "` does not terminate") =
        beginning 10 (w'.typeText receiver' ++ "` does not terminate")
  | _, _ => False

/-- The first words of a message. -/
def firstWords : Failure → String
  | .noMethod _ _ _ _ _ => "no method named `"
  | .ambiguous _ _ _ => "multiple applicable items named `"
  | .endlessDeref _ _ _ => "auto-dereferencing `"

/-- What a message says after its first words. -/
def restText (w : Writer) : Failure → String
  | .noMethod method receiver _ _ _ => w.namedText method receiver
  | .ambiguous method receiver _ =>
      w.names.text method ++ "` for type `" ++ w.typeText receiver ++ "`"
  | .endlessDeref receiver _ _ => w.typeText receiver ++ "` does not terminate"

/-- A message is the fixed words of its kind with the rest behind them. -/
theorem message_eq_firstWords (w : Writer) (span : Span) (f : Failure) :
    (w.diagnostic span f).message = firstWords f ++ w.restText f := by
  cases f <;> simp only [diagnostic, noMethod, ambiguous, endlessDeref, firstWords, restText,
    namedText, String.append_assoc]

/-- A failure is reported at the start of its call. -/
theorem position_diagnostic (w : Writer) (span : Span) (f : Failure) :
    (w.diagnostic span f).position = span.start := by
  cases f <;> rfl

/-- The first letter of a message. -/
def initial : Failure → Char
  | .noMethod _ _ _ _ _ => 'n'
  | .ambiguous _ _ _ => 'm'
  | .endlessDeref _ _ _ => 'a'

/-- Beginnings that agree in one character at least agree in the first, which tells the
kinds of failures apart. -/
theorem initial_eq {x y : String} {n : Nat}
    (h : beginning (n + 1) (firstWords f ++ x) = beginning (n + 1) (firstWords f' ++ y)) :
    initial f = initial f' := by
  have hinitial : ∀ (f : Failure) (x : String),
      ((firstWords f ++ x).toList.take (n + 1)).head? = some (initial f) := by
    intro f x
    have hwords : (firstWords f).toList.head? = some (initial f) := by
      cases f <;> simp [firstWords, initial]
    rw [String.toList_append, List.head?_take, if_neg n.succ_ne_zero, List.head?_append, hwords,
      Option.some_or]
  rw [beginning_eq_iff] at h
  rw [← Option.some_inj, ← hinitial f x, h, hinitial f' y]

/-- **What is compared.**  Two failures of calls at one place are taken for the same when
they read alike. -/
theorem readsAlike_iff (span : Span) : ReadsAlike w w' f f' ↔
    (w.diagnostic span f).fingerprint = (w'.diagnostic span f').fingerprint := by
  have hapart {f f' : Failure} (hne : initial f ≠ initial f') {x y : String} :
      False ↔ beginning 30 (firstWords f ++ x) = beginning 30 (firstWords f' ++ y) :=
    ⟨False.elim, fun h => hne (initial_eq h)⟩
  simp only [Diagnostic.fingerprint, position_diagnostic, message_eq_firstWords, Prod.mk.injEq,
    true_and, Diagnostic.comparedLength]
  cases f with
  | noMethod method receiver =>
      cases f' with
      | noMethod method' receiver' =>
          have hshort : "no method named `".length ≤ 30 := by decide
          have hleft : 30 - "no method named `".length = 13 := by decide
          have hrest := beginning_append_eq_iff (x := w.namedText method receiver)
            (y := w'.namedText method' receiver') hshort
          rw [hleft] at hrest
          exact hrest.symm
      | ambiguous => exact hapart (by simp [initial])
      | endlessDeref => exact hapart (by simp [initial])
  | ambiguous =>
      cases f' with
      | noMethod => exact hapart (by simp [initial])
      | ambiguous =>
          have hlong : 30 ≤ "multiple applicable items named `".length := by decide
          refine iff_of_true trivial ?_
          exact (beginning_append_of_le hlong).trans (beginning_append_of_le hlong).symm
      | endlessDeref => exact hapart (by simp [initial])
  | endlessDeref receiver =>
      cases f' with
      | noMethod => exact hapart (by simp [initial])
      | ambiguous => exact hapart (by simp [initial])
      | endlessDeref receiver' =>
          have hshort : "auto-dereferencing `".length ≤ 30 := by decide
          have hleft : 30 - "auto-dereferencing `".length = 10 := by decide
          have hrest := beginning_append_eq_iff (x := w.typeText receiver ++ "` does not terminate")
            (y := w'.typeText receiver' ++ "` does not terminate") hshort
          rw [hleft] at hrest
          exact hrest.symm

/-- The character around names in messages. -/
def quoteMark : Char := Char.ofNat 0x60

/-- Calls of different methods, neither name with the character that closes it, read alike
when the names agree in all characters compared. -/
theorem readsAlike_noMethod_iff {method method' : Symbol} {receiver receiver' : TypeId}
    {tried tried' : List TypeId} {functions functions' : List Origin}
    {outOfScope outOfScope' : List TraitId}
    (hquote : quoteMark ∉ (w.names.text method).toList)
    (hquote' : quoteMark ∉ (w'.names.text method').toList)
    (hne : w.names.text method ≠ w'.names.text method') :
    ReadsAlike w w' (.noMethod method receiver tried functions outOfScope)
        (.noMethod method' receiver' tried' functions' outOfScope') ↔
      13 ≤ (w.names.text method).length ∧ 13 ≤ (w'.names.text method').length ∧
        beginning 13 (w.names.text method) = beginning 13 (w'.names.text method') := by
  have hclosed : ∀ (w : Writer) (method : Symbol) (receiver : TypeId),
      ∃ rest, (w.namedText method receiver).toList =
        (w.names.text method).toList ++ quoteMark :: rest := by
    intro w method receiver
    refine ⟨" found for type `".toList ++ (w.typeText receiver).toList ++ "`".toList, ?_⟩
    have hthen : "` found for type `".toList = quoteMark :: " found for type `".toList := by decide
    simp only [namedText, String.toList_append, List.append_assoc, hthen, List.cons_append]
  obtain ⟨rest, heq⟩ := hclosed w method receiver
  obtain ⟨rest', heq'⟩ := hclosed w' method' receiver'
  change beginning 13 (w.namedText method receiver) =
    beginning 13 (w'.namedText method' receiver') ↔ _
  rw [beginning_eq_iff, beginning_eq_iff, heq, heq',
    take_closed_eq_iff hquote hquote' fun h => hne (String.toList_inj.mp h)]
  simp only [String.length_toList]

/-- An error that is no consequence goes into an outbox with room unless it repeats the
last one. -/
theorem report_snd (hrules : o.rules = {}) (hroom : o.count < o.rules.capacity)
    (hf : (w.diagnostic span f).isConsequence = false) :
    (w.report o span f).2 =
      if o.last? = some (w.diagnostic span f).fingerprint then o
      else { o with
        pending := o.pending ++ [w.diagnostic span f]
        count := o.count + 1
        last? := some (w.diagnostic span f).fingerprint } := by
  have hrejects : o.rejects (w.diagnostic span f) =
      decide (o.last? = some (w.diagnostic span f).fingerprint) := by
    have hnotFull : o.isFull = false := by
      simp only [Outbox.isFull, decide_eq_false_iff_not]
      omega
    simp [Outbox.rejects_eq, hnotFull, hf, hrules]
  simp only [report, Outbox.emit_snd, hrejects, decide_eq_true_eq]

/-- **Two failures of calls at one place.**  Reported one after the other to an outbox with
default rules and room for two, neither a consequence, both are counted exactly when the
first does not repeat what the outbox remembers and the two do not read alike.  With
different names, neither with the character that closes it, failures to find a method read
alike exactly when the names agree in thirteen characters. -/
theorem both_counted_iff (w w' : Writer) (span : Span) (f f' : Failure)
    (hrules : o.rules = {}) (hroom : o.count + 2 ≤ o.rules.capacity)
    (hf : (w.diagnostic span f).isConsequence = false)
    (hf' : (w'.diagnostic span f').isConsequence = false) :
    ((w'.report (w.report o span f).2 span f').2.count = o.count + 2 ↔
      o.last? ≠ some (w.diagnostic span f).fingerprint ∧ ¬ ReadsAlike w w' f f') ∧
    ∀ method receiver tried functions outOfScope method' receiver' tried' functions' outOfScope',
      f = .noMethod method receiver tried functions outOfScope →
      f' = .noMethod method' receiver' tried' functions' outOfScope' →
      quoteMark ∉ (w.names.text method).toList → quoteMark ∉ (w'.names.text method').toList →
      w.names.text method ≠ w'.names.text method' →
      (ReadsAlike w w' f f' ↔
        13 ≤ (w.names.text method).length ∧ 13 ≤ (w'.names.text method').length ∧
          beginning 13 (w.names.text method) = beginning 13 (w'.names.text method')) := by
  constructor
  · by_cases hrepeat : o.last? = some (w.diagnostic span f).fingerprint
    · have hfirst : (w.report o span f).2 = o := by
        rw [report_snd hrules (by omega) hf, if_pos hrepeat]
      have hmost : (w'.report o span f').2.count ≤ o.count + 1 := by
        rw [report_snd hrules (by omega) hf']
        split <;> simp
      rw [hfirst]
      exact ⟨fun h => by omega, fun h => absurd hrepeat h.1⟩
    · have hfirst := report_snd hrules (by omega) hf
      rw [if_neg hrepeat] at hfirst
      have hsecond := report_snd (o := (w.report o span f).2) (by rw [hfirst]; exact hrules)
        (by rw [hfirst]; exact hroom) hf'
      rw [hsecond, hfirst, readsAlike_iff span]
      simp only [Option.some_inj]
      split
      · next halike => simp [halike]
      · next hapart => simp [hapart, hrepeat]
  · rintro method receiver _ _ _ method' receiver' _ _ _ rfl rfl hquote hquote' hne
    exact readsAlike_noMethod_iff hquote hquote' hne

/-- The second of two failures that read alike is lost. -/
theorem count_of_readsAlike (span : Span) (hf : (w.diagnostic span f).isConsequence = false)
    (hf' : (w'.diagnostic span f').isConsequence = false) (h : ReadsAlike w w' f f') :
    ((w'.report (w.report (.empty {}) span f).2 span f').2).count = 1 := by
  have hfirst := report_snd (o := .empty {}) rfl (by decide) hf
  rw [if_neg nofun] at hfirst
  have hsecond := report_snd (o := (w.report (.empty {}) span f).2) (by rw [hfirst]; rfl)
    (by rw [hfirst]; exact Nat.lt_of_sub_ne_zero nofun) hf'
  rw [hsecond, hfirst, if_pos (congrArg some ((readsAlike_iff span).mp h))]
  rfl

/-- Two names in a new table, with the primitive types and no declarations. -/
def twoNames (first second : String) : Writer × Symbol × Symbol :=
  let entered := SymbolTable.new.intern first
  let both := entered.2.intern second
  (⟨TypeStore.new, both.2, Declarations.empty.database⟩, entered.1, both.1)

/-- Both symbols of the writer read as the names that were interned. -/
theorem text_twoNames (first second : String) :
    (twoNames first second).1.names.text (twoNames first second).2.1 = first ∧
      (twoNames first second).1.names.text (twoNames first second).2.2 = second := by
  simp only [twoNames]
  exact SymbolTable.text_intern_intern first second

/-- A call on `i32` without a method of the name. -/
def missing (method : Symbol) : Failure :=
  .noMethod method (.ofPrimitive .i32) [.ofPrimitive .i32] [] []

/-- A call on `i32` with a method of the name in either of two impls. -/
def twofold (method : Symbol) : Failure :=
  let candidate (i : Nat) : Candidate :=
    ⟨.impl ⟨i⟩, .inherent, method, .byValue, .ofPrimitive .i32, 0, .ofPrimitive .i32⟩
  .ambiguous method (.ofPrimitive .i32) [candidate 0, candidate 1]

section TwoNames

variable {first second text : String} {method : Symbol}

/-- The receiver of these calls prints the same whatever the names. -/
theorem typeText_twoNames :
    (twoNames first second).1.typeText (.ofPrimitive .i32) = "i32" := by
  have hmeaning : TypeStore.new.meaning (.ofPrimitive .i32) = .atom (.prim .i32) := by cbv
  rw [typeText, TypeStore.typeText, show (twoNames first second).1.store = TypeStore.new from rfl,
    hmeaning]
  rfl

/-- What varies in the message is the name; the fixed end follows it at once. -/
theorem namedText_twoNames (h : (twoNames first second).1.names.text method = text) :
    (twoNames first second).1.namedText method (.ofPrimitive .i32) =
      text ++ "` found for type `i32`" := by
  rw [namedText, h, typeText_twoNames, String.append_assoc, String.append_assoc]
  rfl

/-- Whether the message counts as a consequence can be read off the text with the name
filled in. -/
theorem isConsequence_missing (h : (twoNames first second).1.names.text method = text) :
    ((twoNames first second).1.diagnostic .nowhere (missing method)).isConsequence =
      Text.contains ("no method named `" ++ (text ++ "` found for type `i32`"))
        Diagnostic.errorTypeText := by
  rw [Diagnostic.isConsequence, message_eq_firstWords, ← namedText_twoNames h]
  rfl

/-- The same for a call that is ambiguous. -/
theorem isConsequence_twofold (h : (twoNames first second).1.names.text method = text) :
    ((twoNames first second).1.diagnostic .nowhere (twofold method)).isConsequence =
      Text.contains ("multiple applicable items named `" ++ (text ++ "` for type `i32`"))
        Diagnostic.errorTypeText := by
  rw [Diagnostic.isConsequence, message_eq_firstWords, twofold, restText, h, typeText_twoNames,
    String.append_assoc, String.append_assoc]
  rfl

end TwoNames

/-- Short names are told apart. -/
theorem both_counted_short :
    let named := twoNames "save" "load"
    let w := named.1
    (w.report (w.report (.empty {}) .nowhere (missing named.2.1)).2 .nowhere
      (missing named.2.2)).2.count = 2 := by
  intro named w
  obtain ⟨hsave, hload⟩ := text_twoNames "save" "load"
  have hsaved := isConsequence_missing hsave
  have hloaded := isConsequence_missing hload
  obtain ⟨hcounted, halike⟩ := both_counted_iff (o := .empty {}) w w .nowhere
    (missing named.2.1) (missing named.2.2) rfl (by decide)
    (hsaved.trans (by decide)) (hloaded.trans (by decide))
  refine hcounted.mpr ⟨nofun, fun h => ?_⟩
  rw [halike _ _ _ _ _ _ _ _ _ _ rfl rfl (by rw [hsave]; decide) (by rw [hload]; decide)
    (by rw [hsave, hload]; decide), hsave] at h
  exact absurd h.1 (by decide)

/-- Two calls at one place, of methods that differ in name: the second error is lost, when
the names agree in thirteen characters, and whatever the names when several methods apply. -/
theorem different_failures_merged :
    (let named := twoNames "serialize_to_json" "serialize_to_yaml"
     let w := named.1
     w.names.text named.2.1 ≠ w.names.text named.2.2 ∧
      (w.diagnostic .nowhere (missing named.2.1)).isConsequence = false ∧
      (w.diagnostic .nowhere (missing named.2.2)).isConsequence = false ∧
      (w.report (w.report (.empty {}) .nowhere (missing named.2.1)).2 .nowhere
        (missing named.2.2)).2.count = 1) ∧
    (let named := twoNames "save" "load"
     let w := named.1
     w.names.text named.2.1 ≠ w.names.text named.2.2 ∧
      (w.diagnostic .nowhere (twofold named.2.1)).isConsequence = false ∧
      (w.diagnostic .nowhere (twofold named.2.2)).isConsequence = false ∧
      (w.report (w.report (.empty {}) .nowhere (twofold named.2.1)).2 .nowhere
        (twofold named.2.2)).2.count = 1) := by
  constructor
  · intro named w
    obtain ⟨hjson, hyaml⟩ := text_twoNames "serialize_to_json" "serialize_to_yaml"
    have hfirst : (w.diagnostic .nowhere (missing named.2.1)).isConsequence = false :=
      (isConsequence_missing hjson).trans (by decide)
    have hsecond : (w.diagnostic .nowhere (missing named.2.2)).isConsequence = false :=
      (isConsequence_missing hyaml).trans (by decide)
    have halike : ReadsAlike w w (missing named.2.1) (missing named.2.2) := by
      have hbegin : beginning 13 ("serialize_to_json" ++ "` found for type `i32`") =
          beginning 13 ("serialize_to_yaml" ++ "` found for type `i32`") := by decide
      rwa [← namedText_twoNames hjson, ← namedText_twoNames hyaml] at hbegin
    exact ⟨by rw [hjson, hyaml]; decide, hfirst, hsecond,
      count_of_readsAlike .nowhere hfirst hsecond halike⟩
  · intro named w
    obtain ⟨hsave, hload⟩ := text_twoNames "save" "load"
    have hfirst : (w.diagnostic .nowhere (twofold named.2.1)).isConsequence = false :=
      (isConsequence_twofold hsave).trans (by decide)
    have hsecond : (w.diagnostic .nowhere (twofold named.2.2)).isConsequence = false :=
      (isConsequence_twofold hload).trans (by decide)
    exact ⟨by rw [hsave, hload]; decide, hfirst, hsecond,
      count_of_readsAlike .nowhere hfirst hsecond trivial⟩

end Writer

end DotCall
