import DotCall.Text
import Mathlib.Data.List.Infix

/-!
# Texts in brackets

A word in angle brackets is sought in a text that is put together from parts.  Cut
anywhere, a text may end within the word or begin within it, so in general a word that
stands in neither of two texts may stand in the two written together.

It cannot when the texts are bracketed: every `<` has a `>` after it and every `>` has
a `<` before it.  The beginning of the word, up to any place before its end, is a `<`
with no `>` after it, so a bracketed text does not end in it (`Bracketed.mark_append`).
What is left are the brackets that are put around a list of texts.  They make the word
where they enclose just what the word encloses (`Bracketed.mark_arguments`).
-/

namespace DotCall.Text

/-- Searching a text is looking for a contiguous part of it. -/
theorem occursIn_iff {part text : List Char} : occursIn part text = true ↔ part <:+: text := by
  induction text with
  | nil => simp [occursIn]
  | cons c rest ih =>
      rw [occursIn, Bool.or_eq_true, List.isPrefixOf_iff_prefix, ih, List.infix_cons_iff]

/-- The search for a part, written as a loop over positions, finds it exactly when it is
an infix. -/
theorem contains_iff {text part : String} :
    contains text part = true ↔ part.toList <:+: text.toList :=
  occursIn_iff

/-- A word in angle brackets. -/
def mark (word : List Char) : List Char := '<' :: (word ++ ['>'])

/-- No angle bracket occurs in the text. -/
def Plain (x : List Char) : Prop := '<' ∉ x ∧ '>' ∉ x

instance (x : List Char) : Decidable (Plain x) := inferInstanceAs (Decidable (_ ∧ _))

/-- Every `<` in the text has a `>` somewhere after it, and every `>` a `<` somewhere
before it. -/
structure Bracketed (x : List Char) : Prop where
  closed : ∀ before after, x = before ++ '<' :: after → '>' ∈ after
  opened : ∀ before after, x = before ++ '>' :: after → '<' ∈ before

section Bracketed

variable {x y word separator : List Char} {texts : List (List Char)} {c : Char}

/-- A character of two texts written together stands in the first or in the second. -/
theorem append_eq_append_cons {before after : List Char} (h : x ++ y = before ++ c :: after) :
    (∃ rest, x = before ++ c :: rest ∧ after = rest ++ y) ∨
      ∃ rest, before = x ++ rest ∧ y = rest ++ c :: after := by
  rcases List.append_eq_append_iff.mp h with ⟨rest, hbefore, hy⟩ | ⟨rest, hx, hafter⟩
  · exact .inr ⟨rest, hbefore, hy⟩
  · cases rest with
    | nil => exact .inr ⟨[], by simpa using hx.symm, by simpa using hafter.symm⟩
    | cons d rest =>
        obtain ⟨rfl, rfl⟩ := List.cons.inj hafter
        exact .inl ⟨rest, hx, rfl⟩

/-- A property that the separator does not have is one of the separated texts. -/
theorem exists_intersperse {P : List Char → Prop} (hsep : ¬ P separator) :
    (∃ x ∈ texts.intersperse separator, P x) ↔ ∃ x ∈ texts, P x := by
  fun_induction List.intersperse separator texts with
  | case1 => simp
  | case2 x => simp
  | case3 x y rest ih =>
      simp only [List.exists_mem_cons_iff] at ih ⊢
      rw [ih]
      simp [hsep]

namespace Bracketed

/-- A text without angle brackets is balanced. -/
theorem of_plain (h : Plain x) : Bracketed x := by
  constructor
  · intro before after heq
    exact absurd (by simp [heq]) h.1
  · intro before after heq
    exact absurd (by simp [heq]) h.2

/-- Balanced texts stay balanced when they are put together. -/
theorem append (hx : Bracketed x) (hy : Bracketed y) : Bracketed (x ++ y) := by
  constructor
  · intro before after heq
    rcases append_eq_append_cons heq with ⟨rest, hrest, rfl⟩ | ⟨rest, -, hrest⟩
    · exact List.mem_append_left _ (hx.closed _ _ hrest)
    · exact hy.closed _ _ hrest
  · intro before after heq
    rcases append_eq_append_cons heq with ⟨rest, hrest, -⟩ | ⟨rest, rfl, hrest⟩
    · exact hx.opened _ _ hrest
    · exact List.mem_append_right _ (hy.opened _ _ hrest)

/-- Whatever stands in brackets is bracketed as a whole. -/
theorem mark (x : List Char) : Bracketed (mark x) := by
  constructor
  · intro before after heq
    rcases append_eq_append_cons (x := '<' :: x) heq with ⟨rest, -, rfl⟩ | ⟨rest, -, hrest⟩
    · simp
    · cases rest <;> simp at hrest
  · intro before after heq
    cases before with
    | nil => simp [Text.mark] at heq
    | cons d before =>
        obtain ⟨rfl, -⟩ := List.cons.inj heq
        exact List.mem_cons_self

/-- Any number of balanced texts in a row are balanced. -/
theorem flatten (h : ∀ x ∈ texts, Bracketed x) : Bracketed texts.flatten := by
  induction texts with
  | nil => exact of_plain (by decide)
  | cons x texts ih =>
      obtain ⟨hx, hrest⟩ := List.forall_mem_cons.mp h
      rw [List.flatten_cons]
      exact hx.append (ih hrest)

/-- Balanced separators between balanced texts give balanced texts. -/
theorem intersperse (hsep : Bracketed separator) (h : ∀ x ∈ texts, Bracketed x) :
    ∀ x ∈ texts.intersperse separator, Bracketed x := by
  by_contra hbad
  obtain ⟨x, hx, hne⟩ := (exists_intersperse (not_not_intro hsep)).mp (by simpa using hbad)
  exact hne (h x hx)

/-- Joined by a balanced separator, balanced texts are balanced. -/
theorem intercalate (hsep : Bracketed separator) (h : ∀ x ∈ texts, Bracketed x) :
    Bracketed (separator.intercalate texts) :=
  flatten (intersperse hsep h)

/-- **A marked word is not made by writing texts together.**  It stands in a bracketed
text followed by another one exactly when it stands in one of them. -/
theorem mark_append (hword : Plain word) (hx : Bracketed x) :
    Text.mark word <:+: x ++ y ↔ Text.mark word <:+: x ∨ Text.mark word <:+: y := by
  constructor
  · intro h
    rcases List.infix_append_iff.mp h with h | h | ⟨first, second, heq, hfirst, hsecond⟩
    · exact .inl h
    · exact .inr h
    · cases first with
      | nil => exact .inr (heq ▸ hsecond.isInfix)
      | cons d first =>
          obtain ⟨rfl, hrest⟩ := List.cons.inj heq
          rcases append_eq_append_cons hrest.symm with ⟨rest, rfl, hnil⟩ | ⟨rest, rfl, -⟩
          · obtain ⟨rfl, rfl⟩ := List.append_eq_nil_iff.mp hnil.symm
            exact .inl hfirst.isInfix
          · -- the first text ends in the beginning of the word, which is not closed
            obtain ⟨before, hbefore⟩ := hfirst
            have hclosed : '>' ∈ first := hx.closed before first hbefore.symm
            exact absurd (List.mem_append_left rest hclosed) hword.2
  · intro h
    rcases h with h | h
    · exact h.trans (List.prefix_append x y).isInfix
    · exact h.trans (List.suffix_append x y).isInfix

end Bracketed

/-- A marked word does not stand in a text without brackets. -/
theorem Plain.not_mark (h : Plain x) : ¬ mark word <:+: x :=
  fun hin => h.1 (hin.subset List.mem_cons_self)

/-- In balanced texts in a row a mark lies within one of them, for a mark that began in
one and ended in another would leave both unbalanced. -/
theorem mark_flatten (hword : Plain word) (h : ∀ x ∈ texts, Bracketed x) :
    mark word <:+: texts.flatten ↔ ∃ x ∈ texts, mark word <:+: x := by
  induction texts with
  | nil => simp [mark]
  | cons x texts ih =>
      obtain ⟨hx, hrest⟩ := List.forall_mem_cons.mp h
      rw [List.flatten_cons, hx.mark_append hword, ih hrest, List.exists_mem_cons_iff]

/-- A mark in one of several texts is a mark in the joined one. -/
theorem mark_in_intercalate (hsep : Plain separator) (h : ∃ x ∈ texts, mark word <:+: x) :
    mark word <:+: separator.intercalate texts := by
  obtain ⟨x, hx, hin⟩ := (exists_intersperse hsep.not_mark).mpr h
  exact hin.trans (List.infix_of_mem_flatten hx)

/-- Where the separator has no angle brackets, a joined text is marked exactly where one
of its parts is. -/
theorem mark_intercalate (hword : Plain word) (hsep : Plain separator)
    (h : ∀ x ∈ texts, Bracketed x) :
    mark word <:+: separator.intercalate texts ↔ ∃ x ∈ texts, mark word <:+: x := by
  have hparts := Bracketed.intersperse (.of_plain hsep) h
  rw [List.intercalate, mark_flatten hword hparts, exists_intersperse hsep.not_mark]

/-- Around a bracketed text, brackets make a marked word only where the text is the word. -/
theorem mark_mark (hword : Plain word) (hx : Bracketed x) :
    mark word <:+: mark x ↔ word = x ∨ mark word <:+: x := by
  have houter : mark word <+: mark x ↔ word = x := by
    constructor
    · intro ⟨after, heq⟩
      have hinner : x ++ ['>'] = word ++ '>' :: after := by
        simpa [mark] using heq.symm
      rcases append_eq_append_cons hinner with ⟨rest, hrest, -⟩ | ⟨rest, rfl, hrest⟩
      · exact absurd (hx.opened _ _ hrest) hword.1
      · cases rest with
        | nil => simp
        | cons d rest => simp at hrest
    · intro heq
      rw [heq]
  have hend : ¬ mark word <:+: ['>'] := fun hin => by
    simpa using hin.subset List.mem_cons_self
  rw [mark, mark, List.infix_cons_iff, ← mark, ← mark, houter, hx.mark_append hword,
    or_iff_left hend]

/-- Several texts in brackets make a marked word only where one of them contains it, or
where the word is the only text. -/
theorem mark_arguments (hword : Plain word) (hsep : Plain separator)
    (hc : c ∈ separator) (hfree : c ∉ word) (hne : word ≠ [])
    (h : ∀ x ∈ texts, Bracketed x) :
    mark word <:+: mark (separator.intercalate texts) ↔
      texts = [word] ∨ ∃ x ∈ texts, mark word <:+: x := by
  have hall : word = separator.intercalate texts ↔ texts = [word] := by
    match texts with
    | [] => simpa using hne
    | [x] => simp [eq_comm]
    | x :: y :: rest =>
        have hmem : c ∈ separator.intercalate (x :: y :: rest) := by
          rw [List.intercalate_cons_cons]
          simp [hc]
        exact iff_of_false (fun heq => hfree (heq ▸ hmem)) (by simp)
  rw [mark_mark hword (.intercalate (.of_plain hsep) h), hall, mark_intercalate hword hsep h]

end Bracketed

/-- A bracketed text in which the marked word does not stand. -/
structure Lacks (word x : List Char) : Prop extends Bracketed x where
  absent : ¬ mark word <:+: x

namespace Lacks

variable {x y word before after : List Char}

/-- A text without angle brackets lacks every mark. -/
theorem of_plain (h : Plain x) : Lacks word x := ⟨.of_plain h, h.not_mark⟩

/-- Nothing is marked across the border of two texts, of which each is balanced and lacks
the mark. -/
theorem append (hword : Plain word) (hx : Lacks word x) (hy : Lacks word y) :
    Lacks word (x ++ y) := by
  refine ⟨hx.toBracketed.append hy.toBracketed, ?_⟩
  rw [hx.mark_append hword, not_or]
  exact ⟨hx.absent, hy.absent⟩

/-- Texts without the marked word around a bracketed text leave it to that text whether
the word is found. -/
theorem mark_between (hword : Plain word) (hbefore : Lacks word before) (hx : Bracketed x)
    (hafter : Lacks word after) :
    mark word <:+: before ++ x ++ after ↔ mark word <:+: x := by
  rw [(hbefore.toBracketed.append hx).mark_append hword, hbefore.mark_append hword,
    or_iff_left hafter.absent, or_iff_right hbefore.absent]

end Lacks

end DotCall.Text
