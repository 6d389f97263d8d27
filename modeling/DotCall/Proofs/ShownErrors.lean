import DotCall.Call.Report
import DotCall.Proofs.PatternTrees
import DotCall.Proofs.RecursionDepth
import DotCall.Proofs.BracketedTexts

/-!
# How the error type shows

The outbox takes an error for the consequence of an earlier one when `<error>` stands in
its message.  A message names the receiver of the call, so the error type in the
receiver has to show there, and nothing else should.

It always shows: whatever a former writes around its arguments, it writes each of them
in full.  That nothing else does is not so.  The arguments of a nominal type are written
in angle brackets, and `Foo<error>` is the text of `Foo` with a type named `error` as its
argument.  This is the only way: where no name contains an angle bracket, every type is
written as a bracketed text, and a word in brackets is then found only inside an argument,
or around a single argument (`Text.mark_arguments`).
-/

namespace DotCall

open Text

/-- The word that the error type shows in brackets. -/
def errorWord : List Char := "error".toList

/-- What the outbox looks for is the word `error` in angle brackets. -/
theorem errorTypeText_toList : Diagnostic.errorTypeText.toList = mark errorWord := by
  decide

/-- The word itself has no brackets. -/
theorem errorWord_plain : Plain errorWord := by
  decide

/-- No name of the spelling contains an angle bracket, except for one that is marked
otherwise. -/
structure Spelling.Harmless (sp : Spelling) : Prop where
  name : ∀ n, Lacks errorWord (sp.name n).toList
  var : ∀ id, Lacks errorWord (sp.var id).toList
  generic : ∀ id, Lacks errorWord (sp.generic id).toList

/-- Somewhere in the tree stands a nominal type whose only argument reads `error`. -/
inductive Tree.ShowsError (sp : Spelling) : Tree → Prop where
  | here {name : Symbol} {arg : Tree} (h : arg.text sp = "error") :
      ShowsError sp (.app (.nominal name) [arg])
  | inside {f : Former} {args : List Tree} {t : Tree} (ht : t ∈ args) (h : ShowsError sp t) :
      ShowsError sp (.app f args)

section Formers

variable {sp : Spelling} {texts : List String}

/-- Neither has a number. -/
theorem digits_plain (n : Nat) : Plain (toString n).toList := by
  have hdigit : ∀ c ∈ (toString n).toList, c.isDigit := by
    intro c hc
    have hc : c ∈ Nat.toDigits 10 n := by simpa using hc
    exact Nat.isDigit_of_mem_toDigits (by decide) (by decide) hc
  constructor
  · intro hc
    exact absurd (hdigit _ hc) (by decide)
  · intro hc
    exact absurd (hdigit _ hc) (by decide)

/-- What a former other than a nominal type writes before and after its arguments. -/
theorem Former.text_eq (f : Former) (hf : ∀ n, f ≠ .nominal n) :
    ∃ before after : List Char, Plain before ∧ Plain after ∧
      ∀ texts, (f.text sp texts).toList =
        before ++ (texts.map String.toList).flatten ++ after := by
  cases f with
  | ref b =>
      refine ⟨b.text.toList, [], ?_, by decide, fun texts => ?_⟩
      · cases b <;> decide
      · simp [Former.text, List.flatMap_def]
  | slice =>
      refine ⟨['['], [']'], by decide, by decide, fun texts => ?_⟩
      simp [Former.text, List.flatMap_def]
  | array length =>
      refine ⟨['['], "; ".toList ++ (toString length).toList ++ [']'], by decide, ?_,
        fun texts => ?_⟩
      · have h := digits_plain length
        simp [Plain] at h ⊢
        exact h
      · simp [Former.text, List.flatMap_def]
  | nominal n => exact absurd rfl (hf n)

/-- A nominal type with arguments is its name with a mark behind it, in which the
arguments are joined. -/
theorem Former.text_nominal (n : Symbol) (h : texts ≠ []) :
    (Former.text sp texts (.nominal n)).toList =
      (sp.name n).toList ++ mark (", ".toList.intercalate (texts.map String.toList)) := by
  simp [Former.text, h, mark]

namespace Former

/-- Brackets in the arguments are still matched in the whole. -/
theorem bracketed_text (hsp : sp.Harmless) (f : Former)
    (h : ∀ x ∈ texts, Bracketed x.toList) : Bracketed (f.text sp texts).toList := by
  have htexts : ∀ x ∈ texts.map String.toList, Bracketed x := List.forall_mem_map.mpr h
  by_cases hf : ∃ n, f = .nominal n
  · obtain ⟨n, rfl⟩ := hf
    have hname := (hsp.name n).toBracketed
    by_cases hempty : texts = []
    · simpa [Former.text, hempty] using hname
    · rw [text_nominal n hempty]
      exact hname.append (.mark _)
  · obtain ⟨before, after, hbefore, hafter, heq⟩ := f.text_eq (not_exists.mp hf)
    rw [heq]
    exact ((Bracketed.of_plain hbefore).append (.flatten htexts)).append (.of_plain hafter)

/-- What is found in the text of an argument is found in the whole. -/
theorem marked_text {word : List Char} (f : Former) (h : ∃ x ∈ texts, mark word <:+: x.toList) :
    mark word <:+: (f.text sp texts).toList := by
  have hin : ∃ x ∈ texts.map String.toList, mark word <:+: x := by simpa using h
  by_cases hf : ∃ n, f = .nominal n
  · obtain ⟨n, rfl⟩ := hf
    have hne : texts ≠ [] := List.ne_nil_of_mem h.choose_spec.1
    have hcomma : Plain ", ".toList := by decide
    have hjoined := mark_in_intercalate hcomma hin
    rw [text_nominal n hne]
    exact hjoined.trans ⟨(sp.name n).toList ++ ['<'], ['>'], by simp [mark]⟩
  · obtain ⟨before, after, -, -, heq⟩ := f.text_eq (not_exists.mp hf)
    obtain ⟨x, hx, hmark⟩ := hin
    rw [heq]
    exact (hmark.trans (List.infix_of_mem_flatten hx)).trans ⟨before, after, rfl⟩

/-- What a former adds to its arguments makes the word only around a single argument. -/
theorem marked_text_iff (hsp : sp.Harmless) (f : Former)
    (h : ∀ x ∈ texts, Bracketed x.toList) :
    mark errorWord <:+: (f.text sp texts).toList ↔
      (∃ x ∈ texts, mark errorWord <:+: x.toList) ∨
        ∃ n, f = .nominal n ∧ texts = ["error"] := by
  have htexts : ∀ x ∈ texts.map String.toList, Bracketed x := List.forall_mem_map.mpr h
  by_cases hf : ∃ n, f = .nominal n
  · obtain ⟨n, rfl⟩ := hf
    have hname := hsp.name n
    by_cases hempty : texts = []
    · simpa [Former.text, hempty] using hname.absent
    · have honly : texts.map String.toList = [errorWord] ↔ texts = ["error"] := by
        rw [errorWord, ← List.map_singleton, List.map_inj_right fun _ _ => String.toList_inj.mp]
      rw [text_nominal n hempty, hname.mark_append errorWord_plain,
        mark_arguments errorWord_plain (by decide) (c := ',') (by decide) (by decide) (by decide)
          htexts, honly]
      simp [hname.absent, or_comm]
  · obtain ⟨before, after, hbefore, hafter, heq⟩ := f.text_eq (not_exists.mp hf)
    rw [heq, Lacks.mark_between errorWord_plain (.of_plain hbefore) (.flatten htexts)
      (.of_plain hafter), mark_flatten errorWord_plain htexts]
    have hnot : ¬ ∃ n, f = .nominal n ∧ texts = ["error"] := fun ⟨n, hn, _⟩ => hf ⟨n, hn⟩
    simp [hnot]

end Former

end Formers

section Trees

variable {sp : Spelling}

/-- Every primitive type but the error prints without brackets. -/
theorem Primitive.plain_text {p : Primitive} (h : p ≠ .error) : Plain p.text.toList := by
  cases p with
  | error => exact absurd rfl h
  | _ => decide

/-- An atom that is no error is written without the error type. -/
theorem Atom.lacks_text (hsp : sp.Harmless) {a : Atom} (h : ¬ a.IsError) :
    Lacks errorWord (a.text sp).toList := by
  cases a with
  | prim p => exact .of_plain (Primitive.plain_text fun he => h (.inl (by rw [he])))
  | reserved slot => exact absurd (.inr ⟨slot, rfl⟩) h
  | object n =>
      have heq : (Atom.text sp (.object n)).toList = "dyn ".toList ++ (sp.name n).toList := by
        simp [Atom.text]
      rw [heq]
      exact .append errorWord_plain (.of_plain (by decide)) (hsp.name n)
  | var id => exact hsp.var id
  | param position =>
      have hplain : Plain "_".toList := by decide
      exact .of_plain hplain
  | generic id => exact hsp.generic id

/-- The error type prints as the mark that the outbox looks for. -/
theorem Atom.text_of_isError {a : Atom} (h : a.IsError) :
    (a.text sp).toList = mark errorWord := by
  rcases h with rfl | ⟨slot, rfl⟩
  · exact errorTypeText_toList
  · exact errorTypeText_toList

namespace Tree

theorem text_atom (a : Atom) : (atom a).text sp = a.text sp := by
  rw [text]

/-- A compound tree prints as its former around the texts of its parts. -/
theorem text_app (f : Former) (args : List Tree) :
    (app f args).text sp = f.text sp (args.map (text sp)) := by
  rw [text, texts_eq_map]

theorem hasError_atom {a : Atom} : (atom a).HasError ↔ a.IsError := by
  simp [HasError]

/-- An error occurs in a compound tree when it occurs in one of its parts. -/
theorem hasError_app {f : Former} {args : List Tree} :
    (app f args).HasError ↔ ∃ t ∈ args, t.HasError := by
  simp only [HasError, mem_atoms_app]
  constructor
  · rintro ⟨a, ⟨t, ht, ha⟩, herror⟩
    exact ⟨t, ht, a, ha, herror⟩
  · rintro ⟨t, ht, a, ha, herror⟩
    exact ⟨a, ⟨t, ht, ha⟩, herror⟩

/-- An atom shows no error by the name of an argument, as it has none. -/
theorem not_showsError_atom {a : Atom} : ¬ (atom a).ShowsError sp := by
  intro h
  cases h

/-- A compound tree shows an error when one of its parts does, or when it is itself a
nominal type around what reads `error`. -/
theorem showsError_app {f : Former} {args : List Tree} :
    (app f args).ShowsError sp ↔ (∃ t ∈ args, t.ShowsError sp) ∨
      ∃ n, f = .nominal n ∧ args.map (text sp) = ["error"] := by
  constructor
  · intro h
    cases h with
    | here h => exact .inr ⟨_, rfl, by rw [List.map_singleton, h]⟩
    | inside ht h => exact .inl ⟨_, ht, h⟩
  · intro h
    rcases h with ⟨t, ht, h⟩ | ⟨n, rfl, hargs⟩
    · exact .inside ht h
    · obtain ⟨t, rfl, h⟩ := List.map_eq_singleton_iff.mp hargs
      exact .here h

/-- **The error type always shows.**  Wherever it occurs in a type, it stands in its
text. -/
theorem HasError.marked {t : Tree} (h : t.HasError) (sp : Spelling) :
    mark errorWord <:+: (t.text sp).toList := by
  induction t with
  | atom a =>
      rw [text_atom, Atom.text_of_isError (hasError_atom.mp h)]
  | app f args ih =>
      obtain ⟨t, ht, herror⟩ := hasError_app.mp h
      rw [text_app]
      exact f.marked_text ⟨_, List.mem_map_of_mem ht, ih t ht herror⟩

/-- **Every type prints with balanced brackets**, whatever stands in it, as long as no
name has any. -/
theorem bracketed_text (hsp : sp.Harmless) (t : Tree) : Bracketed (t.text sp).toList := by
  induction t with
  | atom a =>
      rw [text_atom]
      by_cases herror : a.IsError
      · rw [Atom.text_of_isError herror]
        exact .mark _
      · exact (Atom.lacks_text hsp herror).toBracketed
  | app f args ih =>
      rw [text_app]
      exact f.bracketed_text hsp (List.forall_mem_map.mpr ih)

/-- **What reads as the error type.**  It is found in the text of a type where it occurs,
and where a nominal type has just one argument, which reads `error`. -/
theorem marked_iff (hsp : sp.Harmless) (t : Tree) :
    mark errorWord <:+: (t.text sp).toList ↔ t.HasError ∨ t.ShowsError sp := by
  induction t with
  | atom a =>
      rw [text_atom, hasError_atom, or_iff_left not_showsError_atom]
      constructor
      · intro hin
        by_contra herror
        exact (Atom.lacks_text hsp herror).absent hin
      · intro herror
        rw [Atom.text_of_isError herror]
  | app f args ih =>
      have hargs : (∃ x ∈ args.map (text sp), mark errorWord <:+: x.toList) ↔
          (∃ t ∈ args, t.HasError) ∨ ∃ t ∈ args, t.ShowsError sp := by
        simp only [List.mem_map, exists_exists_and_eq_and, ← exists_or, ← and_or_left]
        exact exists_congr fun t => and_congr_right (ih t)
      have htexts : ∀ x ∈ args.map (text sp), Bracketed x.toList :=
        List.forall_mem_map.mpr fun t _ => t.bracketed_text hsp
      rw [text_app, f.marked_text_iff hsp htexts, hargs, hasError_app, showsError_app, or_assoc]

end Tree

end Trees

end DotCall
