import DotCall.Proofs.ReorderedImpls

/-!
# Impls declared in another order

Declaring an impl appends it to the impls declared before, and its number is where it
stands.  The index of impls lists these numbers, so whatever is asked of it can be read
off the impls in their order, each with the head under which it is indexed
(`Declarations.Records`).  Two programs whose impls are the same but for their order
therefore know them under different numbers only, and resolve every call alike.
-/

namespace DotCall

open TypeStore

theorem getElem?_concat_eq_some {α : Type} {xs : List α} {x y : α} {i : Nat} :
    (xs ++ [x])[i]? = some y ↔ xs[i]? = some y ∨ i = xs.length ∧ x = y := by
  rw [List.getElem?_append]
  split
  · next h => simp [Nat.ne_of_lt h]
  · next h =>
      rw [List.getElem?_eq_none (Nat.le_of_not_lt h), List.getElem?_singleton]
      by_cases heq : i = xs.length
      · simp [heq]
      · have hne : i - xs.length ≠ 0 := by omega
        simp [heq, hne]

namespace Declarations

/-- The declarations were made one after the other.  The entries are the impls among
them, each with the head that its self type had then. -/
inductive Records : Declarations → List (Option Head × ImplDecl) → Prop where
  | empty : Records .empty []
  | trait {d : Declarations} {entries : List (Option Head × ImplDecl)} (h : Records d entries)
      (decl : TraitDecl) : Records (d.addTrait decl).2 entries
  | impl {d : Declarations} {entries : List (Option Head × ImplDecl)} (h : Records d entries)
      (s : TypeStore) (decl : ImplDecl) :
      Records (d.addImpl s decl).2 (entries ++ [(s.head? decl.self, decl)])
  | deref {d : Declarations} {entries : List (Option Head × ImplDecl)} (h : Records d entries)
      (rule : Rule) : Records (d.addDeref rule) entries
  | unsizing {d : Declarations} {entries : List (Option Head × ImplDecl)} (h : Records d entries)
      (rule : Rule) : Records (d.addUnsizing rule) entries

namespace Records

variable {d d' : Declarations} {entries entries' : List (Option Head × ImplDecl)} {id : ImplId}

theorem size_eq (h : d.Records entries) : d.impls.size = entries.length := by
  induction h with
  | empty => rfl
  | impl _ _ _ ih => simp [addImpl, ih]
  | trait _ _ ih | deref _ _ ih | unsizing _ _ ih => exact ih

/-- The entry of an impl is the one at its number, an earlier one or the last. -/
theorem getElem?_impl (h : d.Records entries) {entry entry' : Option Head × ImplDecl} :
    (entries ++ [entry])[id.index]? = some entry' ↔
      entries[id.index]? = some entry' ∨ id = ⟨d.impls.size⟩ ∧ entry = entry' := by
  obtain ⟨i⟩ := id
  rw [getElem?_concat_eq_some, h.size_eq, ImplId.mk.injEq]

/-- The impls are the entries, in their order. -/
theorem impl?_iff (h : d.Records entries) {decl : ImplDecl} :
    d.impl? id = some decl ↔ ∃ head?, entries[id.index]? = some (head?, decl) := by
  induction h with
  | empty => simp [Declarations.empty, impl?]
  | impl h _ _ ih =>
      rw [impl?_addImpl, ih]
      simp [h.getElem?_impl, exists_or, eq_comm]
  | trait _ _ ih | deref _ _ ih | unsizing _ _ ih => exact ih

/-- Under a head stand the entries that were declared with it. -/
theorem mem_headIndex (h : d.Records entries) {head : Head} :
    id ∈ d.headIndex.getD head [] ↔ ∃ decl, entries[id.index]? = some (some head, decl) := by
  induction h with
  | empty => simp [Declarations.empty]
  | @impl d entries h s decl ih =>
      simp only [h.getElem?_impl, exists_or, ← ih]
      cases hcase : s.head? decl.self with
      | none => simp [addImpl, hcase]
      | some key => simp [addImpl, hcase, mem_indexUnder, and_comm]
  | trait _ _ ih | deref _ _ ih | unsizing _ _ ih => exact ih

theorem mem_headless (h : d.Records entries) :
    id ∈ d.headless ↔ ∃ decl, entries[id.index]? = some (none, decl) := by
  induction h with
  | empty => simp [Declarations.empty]
  | @impl d entries h s decl ih =>
      simp only [h.getElem?_impl, exists_or, ← ih]
      cases hcase : s.head? decl.self with
      | none => simp [addImpl, hcase]
      | some key => simp [addImpl, hcase]
  | trait _ _ ih | deref _ _ ih | unsizing _ _ ih => exact ih

/-- The impls for a head are those that have it or none. -/
theorem mem_implsFor (h : d.Records entries) {head? : Option Head} :
    id ∈ d.implsFor head? ↔ ∃ entry, entries[id.index]? = some entry ∧
      (head? = none ∨ entry.1 = none ∨ entry.1 = head?) := by
  cases head? with
  | none =>
      rw [show d.implsFor none = d.allImpls from rfl, mem_allImpls]
      simp [h.impl?_iff, Prod.exists, exists_comm (α := ImplDecl)]
  | some head =>
      unfold implsFor
      rw [List.mem_merge, h.mem_headIndex, h.mem_headless]
      simp only [Prod.exists, reduceCtorEq, false_or]
      grind

/-- The implementors of a trait are the entries that name it. -/
theorem mem_implementors (h : d.Records entries) {traitId : TraitId} :
    id ∈ d.implementors traitId ↔
      ∃ entry, entries[id.index]? = some entry ∧ entry.2.trait? = some traitId := by
  induction h with
  | empty => simp [Declarations.empty, implementors]
  | impl h _ _ ih =>
      rw [mem_implementors_addImpl, ih]
      simp only [h.getElem?_impl, or_and_right, exists_or]
      grind
  | trait _ _ ih | deref _ _ ih | unsizing _ _ ih => exact ih

end Records

section Reordered

variable {d d' : Declarations} {entries entries' : List (Option Head × ImplDecl)}

end Reordered

end Declarations

end DotCall
