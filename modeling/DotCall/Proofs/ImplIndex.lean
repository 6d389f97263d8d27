import DotCall.Proofs.CandidateGathering

/-!
# The index of impls

Impls are sought by the heads of the steps.  No variable is written in the self
type of an impl, so its head is the same in every later store, and the index lists
every impl exactly under the head that its self type has (`Declared.indexed`).  The
impls that are sought are then a part of all impls, in the order of their numbers
(`relevantImpls_eq`).
-/

namespace DotCall

open TypeStore DotCall.Tree

namespace Ascending

variable {α : Type} [DecidableEq α] [LT α] [DecidableLT α] {a x : α} {xs : List α}

/-- Inserting adds the element and loses none. -/
theorem mem_insert : a ∈ insert x xs ↔ a = x ∨ a ∈ xs := by
  induction xs with
  | nil => simp [insert]
  | cons y ys ih =>
      unfold insert
      split
      · simp
      · split
        · next h => simp [h]
        · simp only [List.mem_cons, ih]
          tauto

/-- An ascending list has the elements of the list that it was made of. -/
theorem mem_ofList : a ∈ ofList xs ↔ a ∈ xs := by
  induction xs with
  | nil => simp [ofList]
  | cons y ys ih =>
      rw [ofList, List.foldr_cons, mem_insert, List.mem_cons]
      exact or_congr Iff.rfl ih

section Order

variable (htrans : ∀ {a b c : α}, a < b → b < c → a < c)
  (htotal : ∀ {a b : α}, ¬ a < b → a ≠ b → b < a)

include htrans htotal

/-- Inserting keeps the order. -/
theorem pairwise_insert (h : xs.Pairwise (· < ·)) : (insert x xs).Pairwise (· < ·) := by
  induction xs with
  | nil => simp [insert]
  | cons y ys ih =>
      obtain ⟨hy, hys⟩ := List.pairwise_cons.mp h
      unfold insert
      split
      · next hlt =>
          refine List.pairwise_cons.mpr ⟨fun z hz => ?_, h⟩
          rcases List.mem_cons.mp hz with rfl | hz
          · exact hlt
          · exact htrans hlt (hy z hz)
      · next hlt =>
          split
          · exact h
          · next hne =>
              refine List.pairwise_cons.mpr ⟨fun z hz => ?_, ih hys⟩
              rcases mem_insert.mp hz with rfl | hz
              · exact htotal hlt hne
              · exact hy z hz

/-- What was inserted one by one is ascending. -/
theorem pairwise_ofList (xs : List α) : (ofList xs).Pairwise (· < ·) := by
  induction xs with
  | nil => exact .nil
  | cons x xs ih => exact pairwise_insert htrans htotal ih

end Order

section Unique

omit [DecidableEq α] [DecidableLT α]

variable {ys : List α} (hasymm : ∀ {a b : α}, a < b → ¬ b < a)

include hasymm

/-- Nothing comes twice in an ascending list. -/
theorem nodup (h : xs.Pairwise (· < ·)) : xs.Nodup := by
  refine h.imp fun {a b} hab heq => ?_
  subst heq
  exact hasymm hab hab

/-- Ascending lists with the same members are equal. -/
theorem eq_of_mem_iff (hx : xs.Pairwise (· < ·)) (hy : ys.Pairwise (· < ·))
    (h : ∀ a, a ∈ xs ↔ a ∈ ys) : xs = ys :=
  List.Perm.eq_of_pairwise (fun _ _ _ _ hab hba => absurd hba (hasymm hab)) hx hy
    ((List.perm_ext_iff_of_nodup (nodup hasymm hx) (nodup hasymm hy)).mpr h)

end Unique

end Ascending

namespace ImplId

variable {a b c : ImplId}

theorem lt_iff : a < b ↔ a.index < b.index := Iff.rfl

theorem lt_trans (hab : a < b) (hbc : b < c) : a < c := Nat.lt_trans hab hbc

theorem lt_asymm (h : a < b) : ¬ b < a := Nat.lt_asymm h

theorem lt_of_not_lt (h : ¬ a < b) (hne : a ≠ b) : b < a := by
  obtain ⟨i⟩ := a
  obtain ⟨j⟩ := b
  simp only [lt_iff, ne_eq, ImplId.mk.injEq] at h hne ⊢
  omega

end ImplId

/-- The impls that are sought are listed in the order of their numbers. -/
theorem Resolver.pairwise_relevantImpls (r : Resolver) (s : TypeStore) (steps : List Step) :
    (r.relevantImpls s steps).Pairwise (· < ·) :=
  Ascending.pairwise_ofList ImplId.lt_trans ImplId.lt_of_not_lt _

/-- The head of a type is that of the tree it is written as. -/
theorem TypeStore.WellFormed.head?_written {s : TypeStore} (h : s.WellFormed) (t : TypeId) :
    (s.written t).head? = (s.node t).head? := by
  cases hn : s.node t with
  | atom a => rw [written_of_atom hn]; rfl
  | app f args => rw [h.written_of_app hn]; rfl

namespace Declarations

/-- All impls, in the order of their numbers. -/
def allImpls (d : Declarations) : List ImplId := (List.range d.impls.size).map ImplId.mk

/-- The declarations were made one after the other, the impls in earlier states of
the store. -/
inductive Declared (s : TypeStore) : Declarations → Prop where
  | empty : Declared s .empty
  | trait {d : Declarations} (h : Declared s d) (decl : TraitDecl) : Declared s (d.addTrait decl).2
  | impl {d : Declarations} (h : Declared s d) {checkpoints : List Checkpoint} {past : TypeStore}
      (reached : Reached checkpoints past) (grows : Grows past s) {decl : ImplDecl}
      (has : past.Has decl.self) : Declared s (d.addImpl past decl).2
  | deref {d : Declarations} (h : Declared s d) (rule : Rule) : Declared s (d.addDeref rule)
  | unsizing {d : Declarations} (h : Declared s d) (rule : Rule) : Declared s (d.addUnsizing rule)

/-- Every impl is listed under the head of its self type, or, when it has none,
apart. -/
structure Indexed (d : Declarations) (s : TypeStore) : Prop where
  under : ∀ {head id}, id ∈ d.headIndex.getD head [] ↔
    ∃ decl, d.impl? id = some decl ∧ (s.written decl.self).head? = some head
  apart : ∀ {id}, id ∈ d.headless ↔
    ∃ decl, d.impl? id = some decl ∧ (s.written decl.self).head? = none

variable {d : Declarations} {s x y : TypeStore} {id : ImplId} {decl : ImplDecl}

/-- All impls are those that have been declared. -/
theorem mem_allImpls : id ∈ d.allImpls ↔ ∃ decl, d.impl? id = some decl := by
  unfold allImpls impl?
  rw [List.mem_map]
  constructor
  · rintro ⟨i, hi, rfl⟩
    exact ⟨_, Array.getElem?_eq_getElem (List.mem_range.mp hi)⟩
  · rintro ⟨decl, hdecl⟩
    obtain ⟨hlt, -⟩ := Array.getElem?_eq_some_iff.mp hdecl
    exact ⟨id.index, List.mem_range.mpr hlt, rfl⟩

/-- They come in the order of their numbers. -/
theorem pairwise_allImpls : d.allImpls.Pairwise (· < ·) := by
  unfold allImpls
  rw [List.pairwise_map]
  simp only [ImplId.lt_iff]
  exact List.pairwise_lt_range

/-- Declaring an impl gives the next number to it and leaves the others. -/
theorem impl?_addImpl {past : TypeStore} {decl' : ImplDecl} :
    (d.addImpl past decl).2.impl? id = some decl' ↔
      d.impl? id = some decl' ∨ id = ⟨d.impls.size⟩ ∧ decl = decl' := by
  show (d.impls.push decl)[id.index]? = some decl' ↔ _
  rw [Array.getElem?_push]
  unfold impl?
  obtain ⟨i⟩ := id
  by_cases hi : i = d.impls.size
  · subst hi
    simp
  · simp [hi]

/-- The head of a type in which no variable is written can be read off. -/
theorem head?_eq_written {past : TypeStore} (hp : past.WellFormed) {t : TypeId}
    (hfixed : (past.written t).Fixed) : past.head? t = (past.written t).head? := by
  have hl : past.link? t = none := by
    rw [link?_eq_none]
    intro id _ hn
    exact absurd (by simp [WellFormed.written_of_atom hn]) (hfixed id)
  rw [TypeStore.head?, root_of_no_link hl, hp.head?_written]

/-- A list that is kept under a key gains the new impl when it is the one of its key. -/
theorem mem_indexUnder {κ : Type} [BEq κ] [Hashable κ] [LawfulBEq κ] [LawfulHashable κ]
    {index : Std.HashMap κ (List ImplId)} {sought key : κ} {new : ImplId} :
    id ∈ (indexUnder index key new).getD sought [] ↔
      id ∈ index.getD sought [] ∨ key = sought ∧ id = new := by
  unfold indexUnder
  rw [Std.HashMap.getD_insert]
  by_cases h : key = sought
  · simp [h]
  · simp [h]

/-- **Declaring an impl** keeps the index complete. -/
theorem Indexed.addImpl (h : d.Indexed s) (hs : s.WellFormed) {past : TypeStore}
    (hp : past.WellFormed) (hgrows : Grows past s) (hself : past.Has decl.self)
    (hfixed : (s.written decl.self).Fixed) : (d.addImpl past decl).2.Indexed s := by
  have hwritten := hp.written_grows hs hgrows hself
  have hhead : past.head? decl.self = (s.written decl.self).head? := by
    rw [hwritten]
    exact head?_eq_written hp (hwritten ▸ hfixed)
  -- Among the impls of a head, or of none, there is the new one or not.
  have hsplit : ∀ {head? : Option Head} {id : ImplId},
      (∃ decl', (d.addImpl past decl).2.impl? id = some decl' ∧
        (s.written decl'.self).head? = head?) ↔
      (∃ decl', d.impl? id = some decl' ∧ (s.written decl'.self).head? = head?) ∨
        past.head? decl.self = head? ∧ id = ⟨d.impls.size⟩ := by
    intro head? id
    simp only [impl?_addImpl, or_and_right, exists_or, hhead]
    grind
  constructor
  · intro head id
    rw [hsplit, ← h.under]
    cases hcase : past.head? decl.self with
    | none =>
        simp only [Declarations.addImpl, hcase, reduceCtorEq, false_and, or_false]
    | some key =>
        simp only [Declarations.addImpl, hcase, mem_indexUnder, Option.some.injEq]
  · intro id
    rw [hsplit, ← h.apart]
    cases hcase : past.head? decl.self with
    | none => simp [Declarations.addImpl, hcase]
    | some key => simp [Declarations.addImpl, hcase]

/-- **The index is complete**, whatever was declared. -/
theorem Declared.indexed (h : Declared s d) (hs : s.WellFormed)
    (hfixed : ∀ {id decl}, d.impl? id = some decl → (s.written decl.self).Fixed) :
    d.Indexed s := by
  induction h with
  | empty => exact ⟨by simp [Declarations.empty, impl?], by simp [Declarations.empty, impl?]⟩
  | trait _ _ ih =>
      obtain ⟨hunder, hapart⟩ := ih hfixed
      exact ⟨hunder, hapart⟩
  | @impl d _ checkpoints past reached grows decl has ih =>
      refine (ih fun hdecl => hfixed (impl?_addImpl.mpr (.inl hdecl))).addImpl hs
        reached.sound.wellFormed grows has (hfixed (impl?_addImpl.mpr (.inr ⟨rfl, rfl⟩)))
  | deref _ _ ih =>
      obtain ⟨hunder, hapart⟩ := ih hfixed
      exact ⟨hunder, hapart⟩
  | unsizing _ _ ih =>
      obtain ⟨hunder, hapart⟩ := ih hfixed
      exact ⟨hunder, hapart⟩

/-- Declaring an impl lists it among the impls of its trait. -/
theorem mem_implementors_addImpl {past : TypeStore} {traitId : TraitId} :
    id ∈ (d.addImpl past decl).2.implementors traitId ↔
      id ∈ d.implementors traitId ∨ decl.trait? = some traitId ∧ id = ⟨d.impls.size⟩ := by
  unfold implementors Declarations.addImpl
  cases decl.trait? with
  | none => simp
  | some key => simp [mem_indexUnder]

/-- Where the impls of a trait are those declared as such, they are so with one more. -/
theorem mem_implementors_addImpl_iff {past : TypeStore} {traitId : TraitId}
    (h : id ∈ d.implementors traitId ↔
      ∃ decl, d.impl? id = some decl ∧ decl.trait? = some traitId) :
    id ∈ (d.addImpl past decl).2.implementors traitId ↔
      ∃ decl', (d.addImpl past decl).2.impl? id = some decl' ∧ decl'.trait? = some traitId := by
  rw [mem_implementors_addImpl, h]
  simp only [impl?_addImpl, or_and_right, exists_or]
  grind

/-- **The impls of a trait** are those that are declared as such. -/
theorem Declared.mem_implementors (h : Declared s d) {traitId : TraitId} :
    id ∈ d.implementors traitId ↔
      ∃ decl, d.impl? id = some decl ∧ decl.trait? = some traitId := by
  induction h with
  | empty => simp [Declarations.empty, implementors, impl?]
  | trait _ _ ih => exact ih
  | impl _ _ _ _ ih => exact mem_implementors_addImpl_iff ih
  | deref _ _ ih => exact ih
  | unsizing _ _ ih => exact ih

/-- The index is right after quiet work, for how self types are written does not change.
-/
theorem Indexed.quiet (h : d.Indexed s) (hd : d.Closed s) (hq : Quiet s x) : d.Indexed x := by
  have hwritten : ∀ {id decl}, d.impl? id = some decl →
      (x.written decl.self).head? = (s.written decl.self).head? := fun hdecl => by
    rw [hq.written_eq (hd.self hdecl).1]
  constructor
  · intro head id
    rw [h.under]
    exact exists_congr fun decl => and_congr_right fun hdecl => by rw [hwritten hdecl]
  · intro id
    rw [h.apart]
    exact exists_congr fun decl => and_congr_right fun hdecl => by rw [hwritten hdecl]

/-- Under a head are found the impls with that head and those without any. -/
theorem Indexed.mem_implsFor (h : d.Indexed s) {head? : Option Head} :
    id ∈ d.implsFor head? ↔ ∃ decl, d.impl? id = some decl ∧
      (head? = none ∨ (s.written decl.self).head? = none ∨
        (s.written decl.self).head? = head?) := by
  cases head? with
  | none =>
      rw [show d.implsFor none = d.allImpls from rfl, mem_allImpls]
      simp
  | some head =>
      unfold implsFor
      rw [List.mem_merge, h.under, h.apart, ← exists_or]
      refine exists_congr fun decl => ?_
      simp only [reduceCtorEq, false_or]
      tauto

end Declarations

/-- An impl whose self type has the given head is sought for the steps: it can
apply to all types, or to references, or has the head of a step, unless a step can
be of any type. -/
def Sought (y : TypeStore) (steps : List Step) (head? : Option Head) : Prop :=
  head? = none ∨ (∃ b, head? = some (.ref b)) ∨
    ∃ step ∈ steps, y.head? step.ty = none ∨ head? = y.head? step.ty

namespace Declarations

variable {d : Declarations} {s y : TypeStore} {id : ImplId} {settings : Settings} {bounds : Bounds}
  {steps : List Step}

/-- **The impls that are looked at** are those whose head is sought. -/
theorem Indexed.mem_relevantImpls (h : d.Indexed s) :
    id ∈ (d.resolver settings bounds).relevantImpls y steps ↔
      ∃ decl, d.impl? id = some decl ∧ Sought y steps (s.written decl.self).head? := by
  have hdb : (d.resolver settings bounds).db.implsFor = d.implsFor := rfl
  unfold Resolver.relevantImpls Sought
  rw [Ascending.mem_ofList, List.mem_flatMap, hdb]
  simp only [List.mem_eraseDups, h.mem_implsFor]
  constructor
  · rintro ⟨head?, hmem, decl, hdecl, hcase⟩
    refine ⟨decl, hdecl, ?_⟩
    rcases List.mem_append.mp hmem with hmem | hmem
    · simp only [List.mem_cons, List.not_mem_nil, or_false] at hmem
      rcases hmem with rfl | rfl <;> grind
    · obtain ⟨step, hstep, rfl⟩ := List.mem_map.mp hmem
      grind
  · rintro ⟨decl, hdecl, hnone | ⟨b, hb⟩ | ⟨step, hstep, hcase⟩⟩
    · exact ⟨some (.ref .shared), by simp, decl, hdecl, .inr (.inl hnone)⟩
    · refine ⟨some (.ref b), ?_, decl, hdecl, .inr (.inr hb)⟩
      cases b <;> simp
    · refine ⟨y.head? step.ty, ?_, decl, hdecl, hcase.imp_right .inr⟩
      exact List.mem_append_right _ (List.mem_map.mpr ⟨step, hstep, rfl⟩)

open Classical in
/-- **The impls that are sought** are among all impls, in the order of their
numbers. -/
theorem Indexed.relevantImpls_eq (h : d.Indexed s) :
    (d.resolver settings bounds).relevantImpls y steps = d.allImpls.filter fun id =>
      decide (∃ decl, d.impl? id = some decl ∧ Sought y steps (s.written decl.self).head?) := by
  refine Ascending.eq_of_mem_iff ImplId.lt_asymm ?_ ?_ fun id => ?_
  · exact Resolver.pairwise_relevantImpls _ _ _
  · exact pairwise_allImpls.filter _
  · rw [h.mem_relevantImpls, List.mem_filter, decide_eq_true_iff, mem_allImpls]
    exact ⟨fun hid => ⟨⟨_, hid.choose_spec.1⟩, hid⟩, fun hid => hid.2⟩

end Declarations

end DotCall
