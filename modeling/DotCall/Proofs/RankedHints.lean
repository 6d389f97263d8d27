import DotCall.Call.Report
import DotCall.Proofs.OutboxRuns

/-!
# The order of notes and hints

A report shows its hints by rank.  Ranks end at 255, so in a long list all later hints have
the same one, and the two lists of hints about a method that was not found share their
ranks.  What keeps each list in order is that hints of equal rank are shown as they were
added.

The key fact is about sorting: two lists that are in order, one put behind the other and
sorted, are merged, and neither of them loses its order (`interleaves_sortedBy_append`).
-/

namespace DotCall

/-- The third list is merged from the first two: it has their elements, and those of either
in their order. -/
inductive Interleaves {α : Type} : List α → List α → List α → Prop
  | nil : Interleaves [] [] []
  | left {x : α} {xs ys zs : List α} (h : Interleaves xs ys zs) :
      Interleaves (x :: xs) ys (x :: zs)
  | right {y : α} {xs ys zs : List α} (h : Interleaves xs ys zs) :
      Interleaves xs (y :: ys) (y :: zs)

namespace Interleaves

variable {α β : Type} {x : α} {xs ys zs : List α}

/-- Nothing interleaved with a list is the list. -/
theorem of_right (ys : List α) : Interleaves [] ys ys := by
  induction ys with
  | nil => exact .nil
  | cons y ys ih => exact .right ih

/-- Interleaving goes through whatever is done to every element. -/
theorem map (h : Interleaves xs ys zs) (f : α → β) :
    Interleaves (xs.map f) (ys.map f) (zs.map f) := by
  induction h with
  | nil => exact .nil
  | left _ ih => exact .left ih
  | right _ ih => exact .right ih

/-- A new first element of the first list may stand behind elements of the second. -/
theorem insert {before after : List α} (h : Interleaves xs ys (before ++ after))
    (hbefore : ∀ b ∈ before, b ∉ xs) : Interleaves (x :: xs) ys (before ++ x :: after) := by
  induction before generalizing ys with
  | nil => exact .left h
  | cons b before ih =>
      cases h with
      | left _ => exact absurd List.mem_cons_self (hbefore b List.mem_cons_self)
      | right h => exact .right (ih h fun c hc => hbefore c (List.mem_cons_of_mem _ hc))

end Interleaves

/-- **Merging by sorting.**  Two lists in order of a key are merged when they are sorted as
one. -/
theorem interleaves_sortedBy_append {α : Type} {key : α → Nat} {xs ys : List α}
    (hx : xs.Pairwise fun a b => key a ≤ key b) (hy : ys.Pairwise fun a b => key a ≤ key b) :
    Interleaves xs ys (sortedBy key (xs ++ ys)) := by
  induction xs with
  | nil =>
      rw [List.nil_append, sortedBy_of_pairwise key hy]
      exact .of_right ys
  | cons x xs ih =>
      obtain ⟨hfirst, hrest⟩ := List.pairwise_cons.mp hx
      obtain ⟨before, after, hsorted, hsplit, hbefore⟩ :=
        @List.mergeSort_cons α (fun a b => decide (key a ≤ key b))
          (fun a b c hab hbc => by simp only [decide_eq_true_eq] at *; omega)
          (fun a b => by simp only [Bool.or_eq_true, decide_eq_true_eq]; omega) x (xs ++ ys)
      have hmerged := ih hrest
      rw [sortedBy, hsplit] at hmerged
      rw [List.cons_append, sortedBy, hsorted]
      refine hmerged.insert fun b hb hmem => ?_
      -- what is sorted before `x` has a smaller key, and the rest of the first list has not
      have hlt : ¬ key x ≤ key b := by simpa using hbefore b hb
      exact hlt (hfirst b hmem)

/-- The ranks of the hints of one list ascend. -/
theorem Writer.pairwise_hintEach {α : Type} (message : α → Nat → String) (items : List α) :
    (hintEach message items).Pairwise fun a b => a.rank ≤ b.rank := by
  have hpositions : items.zipIdx.Pairwise fun p q => p.2 < q.2 := by
    rw [← List.pairwise_map, List.zipIdx_map_snd]
    exact List.pairwise_lt_range'
  refine List.pairwise_map.mpr (hpositions.imp fun {p q} hlt => ?_)
  simp only [rankAt]
  omega

/-- Two lists of hints, each with what it says of an element, are shown merged. -/
theorem Writer.interleaves_hintEach {α β : Type} (first : α → String) (second : β → String)
    (xs : List α) (ys : List β) :
    Interleaves (xs.map first) (ys.map second)
      ((sortedBy Hint.rank (hintEach (fun x _ => first x) xs ++
        hintEach (fun y _ => second y) ys)).map Hint.message) := by
  have hmessage : ∀ {γ : Type} (message : γ → String) (items : List γ),
      (hintEach (fun item _ => message item) items).map Hint.message = items.map message := by
    intro γ message items
    conv_rhs => rw [← List.zipIdx_map_fst 0 items]
    simp only [hintEach, List.map_map, Function.comp_def]
  rw [← hmessage first, ← hmessage second]
  exact (interleaves_sortedBy_append (pairwise_hintEach _ xs) (pairwise_hintEach _ ys)).map _

namespace Diagnostic

/-- The line of a note. -/
def noteLine (note : String) : String := "  = note: " ++ note

/-- The line of a hint. -/
def helpLine (message : String) : String := "  = help: " ++ message

/-- The lines before the notes: the error itself and its labels. -/
def opening (d : Diagnostic) : List String :=
  ("error[" ++ d.code.text ++ "]: " ++ d.message) ::
    d.labels.map fun l => "  --> " ++ l.span.text ++ ": " ++ l.message

/-- A diagnostic is printed as its opening lines, its notes, and its hints by rank. -/
theorem text_eq (d : Diagnostic) :
    d.text = "\n".intercalate (d.opening ++ d.notes.map noteLine ++
      (sortedBy Hint.rank d.hints).map fun h => helpLine h.message) := by
  simp only [text, details, opening, rankedHints, sortedBy, helpLine, List.cons_append]
  rfl

end Diagnostic

namespace Writer

open Diagnostic (noteLine helpLine)

/-- **Long lists stay in order.**  The report of an ambiguous call has a note and a hint for
each of its candidates, however many there are, and is printed as the notes on candidates
`#1` to `#n` and then the hints on candidates `#1` to `#n`.  The report of a method that was
not found ends with the hints on functions and those on traits, merged: none is lost or
repeated, and each of the two lists is in the order in which it was found. -/
theorem lists_in_order (w : Writer) (span : Span) (method : Symbol) (receiver : TypeId) :
    (∀ candidates : List Candidate,
      let d := w.diagnostic span (.ambiguous method receiver candidates)
      d.notes.length = candidates.length ∧ d.hints.length = candidates.length ∧
        d.text = "\n".intercalate (d.opening ++
          candidates.zipIdx.map (fun (c, i) => noteLine
            ("candidate #" ++ toString (i + 1) ++ " is defined in " ++ w.originPhrase c)) ++
          candidates.zipIdx.map fun (c, i) => helpLine
            ("disambiguate the method for candidate #" ++ toString (i + 1) ++ ": `" ++
              w.explicitCall c "receiver" ++ "`"))) ∧
    ∀ (tried : List TypeId) (functions : List Origin) (outOfScope : List TraitId),
      let d := w.diagnostic span (.noMethod method receiver tried functions outOfScope)
      ∃ help : List String,
        d.text = "\n".intercalate (d.opening ++ d.notes.map noteLine ++ help) ∧
        Interleaves
          (functions.map fun origin => helpLine
            ("use associated function syntax: `" ++ w.originPath origin ++ "::" ++
              w.names.text method ++ "(..)`"))
          (outOfScope.map fun t => helpLine
            ("trait `" ++ w.traitText t ++ "` provides `" ++ w.names.text method ++
              "`; consider importing it"))
          help := by
  constructor
  · intro candidates d
    refine ⟨by simp [d, diagnostic, ambiguous], by simp [d, diagnostic, ambiguous, hintEach], ?_⟩
    have hranked : d.hints.Pairwise fun a b => a.rank ≤ b.rank := by
      simp only [d, diagnostic, ambiguous]
      exact pairwise_hintEach _ candidates
    rw [d.text_eq, sortedBy_of_pairwise Hint.rank hranked]
    simp only [d, diagnostic, ambiguous, hintEach, List.map_map, Function.comp_def]
  · intro tried functions outOfScope d
    have hmerged := (interleaves_hintEach
      (fun origin => "use associated function syntax: `" ++ w.originPath origin ++ "::" ++
        w.names.text method ++ "(..)`")
      (fun t => "trait `" ++ w.traitText t ++ "` provides `" ++ w.names.text method ++
        "`; consider importing it") functions outOfScope).map helpLine
    simp only [List.map_map, Function.comp_def] at hmerged
    exact ⟨_, d.text_eq, hmerged⟩

end Writer

end DotCall
