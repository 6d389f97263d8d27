import DotCall.Proofs.ComposedInstances
import DotCall.Proofs.ImplIndex

/-!
# Seeking impls by head misses none

Two types unify only if their heads are the same, or one of them has none: the comparison of
their roots comes to a clash otherwise, as long as no error is written in either
(`head_eq_of_unify`).  No link has to be followed on the side of the impl, and on the other
side finding the root goes as far as looking up the head does, so this holds of links that
run in circles, too.

The index lists every impl under the head of its self type, in the order of declaration, or
apart.  So the impls sought by the head of a type are exactly those that have this head or
none, and every impl that unifies with the type is among them (`Registered.index_exact`).
-/

namespace DotCall

open TypeStore DotCall.Tree

namespace TypeStore

section Heads

variable {s s' : TypeStore} {a b t u : TypeId} {g h : Head}

/-- Whatever the links, finding the root of a type follows them and makes no type. -/
theorem findRootWithin_follow (s : TypeStore) (n : Nat) (t : TypeId) :
    ((findRootWithin n t).run s).1 = s.follow n t ∧
      ((findRootWithin n t).run s).2.entries = s.entries := by
  induction n generalizing t with
  | zero => exact ⟨rfl, rfl⟩
  | succ n ih =>
      cases hl : s.link? t with
      | none =>
          rw [findRootWithin_of_no_link hl, follow_of_no_link hl]
          exact ⟨rfl, rfl⟩
      | some p =>
          obtain ⟨hlast, hsame⟩ := ih p.2
          rw [findRootWithin_of_link hl]
          simp only [follow, hl]
          refine ⟨hlast, ?_⟩
          split
          · exact hsame
          · exact hsame

/-- A type with a head is no variable. -/
theorem link?_of_head (ht : (s.node t).head? ≠ none) : s.link? t = none := by
  rw [link?_eq_none]
  intro id _ hn
  simp [hn, Node.head?, Atom.head?] at ht

/-- Two types with heads that are compared layer by layer have the same head or clash. -/
theorem compareLayers_heads (ha : (s.node a).head? = some g) (hb : (s.node b).head? = some h)
    (position : Position) : g = h ∨ ∃ c, s.compareLayers a b position = .clash c := by
  unfold compareLayers
  cases hna : s.node a with
  | atom x =>
      cases hnb : s.node b with
      | atom y =>
          by_cases hxy : x = y
          · rw [hna, hxy, ← hnb, hb] at ha
            exact .inl (Option.some.inj ha).symm
          · exact .inr ⟨_, if_neg hxy⟩
      | app f right => exact .inr ⟨_, rfl⟩
  | app f left =>
      cases hnb : s.node b with
      | atom y => exact .inr ⟨_, rfl⟩
      | app f' right =>
          by_cases hf : f = f'
          · rw [hna, hf] at ha
            rw [hnb] at hb
            exact .inl (Option.some.inj (ha.symm.trans hb))
          · refine .inr ?_
            simp only [if_neg hf]
            split <;> exact ⟨_, rfl⟩

/-- Compared without an error in them, two types with heads have the same head or clash. -/
theorem compare_heads (ha : (s.node a).head? = some g) (hb : (s.node b).head? = some h)
    (hea : (s.summary a).hasError = false) (heb : (s.summary b).hasError = false)
    (position : Position) : g = h ∨ ∃ c, s.compare a b position = .clash c := by
  by_cases hab : a = b
  · subst hab
    exact .inl (Option.some.inj (ha.symm.trans hb))
  cases hpa : (s.summary a).hasParam with
  | true => exact .inr ⟨_, by simp only [compare, if_neg hab, hea, heb, hpa]; rfl⟩
  | false =>
      cases hpb : (s.summary b).hasParam with
      | true => exact .inr ⟨_, by simp only [compare, if_neg hab, hea, heb, hpa, hpb]; rfl⟩
      | false =>
          have hlayers : s.compare a b position = s.compareLayers a b position := by
            simp only [compare, if_neg hab, hea, heb, hpa, hpb, Bool.or_self, Bool.false_eq_true,
              if_false]
            -- neither is a variable or a generic parameter, for these have no head
            split
            · next id hn => simp [hn, Node.head?, Atom.head?] at ha
            · next id hn _ => simp [hn, Node.head?, Atom.head?] at hb
            · next id id' hn _ => simp [hn, Node.head?, Atom.head?] at ha
            · next id hn _ _ => simp [hn, Node.head?, Atom.head?] at ha
            · next id hn _ _ => simp [hn, Node.head?, Atom.head?] at hb
            · rfl
          rw [hlayers]
          exact compareLayers_heads ha hb position

/-- **Heads decide.**  Types at whose roots no error is written, one of them no variable,
unify only if they have the same head or one of them has none. -/
theorem head_eq_of_unify (ha : s.head? a = some g) (hb : s.head? b = some h)
    (hea : (s.summary (s.root a)).hasError = false) (heb : (s.summary (s.root b)).hasError = false)
    (hfixed : (s.node a).head? ≠ none ∨ (s.node b).head? ≠ none)
    (hok : ((unify a b).run s).1 = .ok ()) : g = h := by
  by_cases hab : a = b
  · subst hab
    exact Option.some.inj (ha.symm.trans hb)
  obtain ⟨hleft, hsame⟩ := findRootWithin_follow s s.size a
  obtain ⟨hright, hsame'⟩ : ((findRoot b).run ((findRoot a).run s).2).1 = s.root b ∧
      ((findRoot b).run ((findRoot a).run s).2).2.entries = s.entries := by
    rcases hfixed with hfixed | hfixed
    · rw [findRoot_of_no_link (link?_of_head hfixed)]
      exact findRootWithin_follow s s.size b
    · -- the other side may have been shortened, but this one has no link
      have hnode : ((findRoot a).run s).2.node b = s.node b := congrFun (node_congr hsame) b
      have hlink := link?_of_head (s := ((findRoot a).run s).2) (hnode ▸ hfixed)
      rw [findRoot_of_no_link hlink, root_of_no_link (link?_of_head hfixed)]
      exact ⟨rfl, hsame⟩
  generalize hstore : ((findRoot b).run ((findRoot a).run s).2).2 = z at hsame'
  have hface : s.facing ⟨a, b, .whole⟩ = (z.compare (s.root a) (s.root b) .whole, z) := by
    simp only [facing, hstore, hright]
    rw [show ((findRoot a).run s).1 = s.root a from hleft]
  rw [head?, ← node_congr hsame'] at ha hb
  rw [← summary_congr hsame'] at hea heb
  have hheads := compare_heads ha hb hea heb .whole
  rcases hheads with heq | ⟨c, hclash⟩
  · exact heq
  · have hrun : (unify a b).run s = (.error c, z) := by
      show (unifyWithin (s.size + 1) ⟨a, b, .whole⟩).run s = _
      rw [unifyWithin_run _ _ _ hab, hface, hclash]
    rw [hrun] at hok
    cases hok

end Heads

/-- Types and variables were added, and the variables that were there keep their bindings. -/
structure Enlarges (s s' : TypeStore) : Prop where
  grows : Grows s s'
  binding : ∀ id < s.variableCount, s'.binding id = s.binding id

namespace Enlarges

variable {s s' s'' : TypeStore} {t : TypeId}

theorem refl (s : TypeStore) : Enlarges s s := ⟨.refl s, fun _ _ => rfl⟩

/-- A store that is enlarged twice is enlarged. -/
theorem trans (h : Enlarges s s') (h' : Enlarges s' s'') : Enlarges s s'' where
  grows := h.grows.trans h'.grows
  binding id hid :=
    (h'.binding id (Nat.lt_of_lt_of_le hid h.grows.count_le)).trans (h.binding id hid)

theorem of_adds (h : Adds s s') : Enlarges s s' := ⟨h.grows, fun id _ => congrFun h.binding_eq id⟩

/-- What was linked is linked as before, and nothing else of the store is. -/
theorem link?_eq (h : Enlarges s s') (hs : s.WellFormed) (ht : s.Has t) :
    s'.link? t = s.link? t := by
  unfold link?
  rw [h.grows.node_eq ht]
  split
  · next id hn => rw [h.binding id (hs.var_lt hn)]
  · rfl

/-- The links of a type that was there are followed as before. -/
theorem follow_eq (h : Enlarges s s') (hs : s.WellFormed) (n : Nat) (ht : s.Has t) :
    s'.follow n t = s.follow n t := by
  induction n generalizing t with
  | zero => rfl
  | succ n ih =>
      rw [follow, follow, h.link?_eq hs ht]
      split
      · next id target hl => exact ih (hs.linked_has (link?_eq_some.mp hl).2)
      · rfl

/-- A type with a head keeps its root. -/
theorem root_eq (h : Enlarges s s') (hs : s.WellFormed) (ht : s.Has t) (hhead : s.head? t ≠ none) :
    s'.root t = s.root t := by
  obtain ⟨more, hsize⟩ := Nat.exists_eq_add_of_le h.grows.size_le
  rw [root, h.follow_eq hs _ ht, hsize, follow_add]
  exact follow_of_no_link (link?_of_head hhead) more

end Enlarges

namespace WellFormed

variable {s : TypeStore} {t : TypeId}

/-- A new variable enlarges a store, and is itself free. -/
theorem newVar_enlarges (h : s.WellFormed) :
    let r := newVar.run s
    r.2.WellFormed ∧ Enlarges s r.2 ∧ r.2.Reads (.atom (.var s.variableCount)) r.1 ∧
      r.2.variableCount = s.variableCount + 1 := by
  have hrun : newVar.run s = (intern (.atom (.var s.variableCount))).run
      (s.withVariable (.free s.variableCount none)) := rfl
  rw [hrun]
  generalize hb : Binding.free s.variableCount none = b
  have hwf : (s.withVariable b).WellFormed := by
    refine h.rebind rfl rfl withVariable_grows.count_le fun {id t} hlinked => ?_
    rw [withVariable_binding] at hlinked
    split at hlinked
    · cases hb.trans hlinked
    · exact h.linked_has hlinked
  have hlarger : Enlarges s (s.withVariable b) := ⟨withVariable_grows, fun id hid => by
    rw [withVariable_binding, if_neg (Nat.ne_of_lt hid)]⟩
  have hcount : (s.withVariable b).variableCount = s.variableCount + 1 := withVariable_count
  obtain ⟨hwf', hadds, hreads⟩ := hwf.provides_atom (a := .var s.variableCount) fun id hid => by
    obtain rfl : s.variableCount = id := by simpa using hid
    omega
  exact ⟨hwf', hlarger.trans (.of_adds hadds), hreads, hadds.count_eq.trans hcount⟩

/-- So do several, one after the other. -/
theorem newVars_enlarges (h : s.WellFormed) (n : Nat) :
    let r := (newVars n).run s
    r.2.WellFormed ∧ Enlarges s r.2 ∧
      List.Forall₂ r.2.Reads ((List.range' s.variableCount n).map fun id => .atom (.var id)) r.1 := by
  induction n generalizing s with
  | zero => exact ⟨h, .refl s, .nil⟩
  | succ n ih =>
      obtain ⟨hwf, hlarger, hfirst, hcount⟩ := h.newVar_enlarges
      obtain ⟨hwf', hlarger', hrest⟩ := ih hwf
      have hrun : (newVars (n + 1)).run s =
          ((newVar.run s).1 :: ((newVars n).run (newVar.run s).2).1,
            ((newVars n).run (newVar.run s).2).2) := rfl
      rw [hrun, List.range'_succ, List.map_cons]
      rw [hcount] at hrest
      exact ⟨hwf', hlarger.trans hlarger',
        .cons (hfirst.grows hwf hwf' hlarger'.grows) hrest⟩

/-- **A fresh instance** is written as the type with variables of its own for its
parameters. -/
theorem freshInstance (h : s.WellFormed) (ht : s.Has t) (n : Nat) :
    let vars := (newVars n).run s
    let r := (instantiate t vars.1).run vars.2
    r.2.WellFormed ∧ Enlarges s r.2 ∧
      r.2.Reads ((s.written t).withVars s.variableCount n) r.1 := by
  obtain ⟨hwf, hlarger, hvars⟩ := h.newVars_enlarges n
  obtain ⟨hwf', hadds, hreads⟩ :=
    hwf.provides_instantiate (reads_later h hwf hlarger.grows ht) hvars
  exact ⟨hwf', hlarger.trans (.of_adds hadds), hreads⟩

/-- A fresh instance of a type unifies with another one only if their heads are the same or
one of them has none. -/
theorem heads_of_unify_fresh (h : s.WellFormed) {self : TypeId} (hself : s.Has self) (ht : s.Has t)
    (hclean : ¬ (s.written self).HasError) (hroot : ¬ (s.written (s.root t)).HasError) (n : Nat) :
    let vars := (newVars n).run s
    let r := (instantiate self vars.1).run vars.2
    ((unify r.1 t).run r.2).1 = .ok () ∨ ((unify t r.1).run r.2).1 = .ok () →
      s.head? t = none ∨ (s.written self).head? = none ∨
        (s.written self).head? = s.head? t := by
  intro vars r hok
  cases hg : (s.written self).head? with
  | none => exact .inr (.inl rfl)
  | some g =>
      cases hh : s.head? t with
      | none => exact .inl rfl
      | some head =>
          obtain ⟨hwf, hlarger, hhas, hwritten⟩ := h.freshInstance hself n
          have herror : ∀ {x : TypeStore} {u}, x.WellFormed → ¬ (x.written u).HasError →
              (x.summary u).hasError = false := fun hx hu =>
            Bool.eq_false_iff.mpr (mt (Summary.Tracks.hasError.summary_iff hx _).mp hu)
          -- the instance has the head of the type and is no variable
          have hnode : (r.2.node r.1).head? = some g := by
            rw [← hwf.head?_written, hwritten, withVars, Tree.head?_fill (by simp [hg]), hg]
          have hfixed : (r.2.node r.1).head? ≠ none := by simp [hnode]
          have hown : r.2.root r.1 = r.1 := root_of_no_link (link?_of_head hfixed)
          have hown? : r.2.head? r.1 = some g := by rw [head?, hown, hnode]
          have hownClean : (r.2.summary (r.2.root r.1)).hasError = false := by
            rw [hown]
            exact herror hwf (by rwa [hwritten, withVars_hasError])
          -- and the other type still has its root
          have hsame : r.2.root t = s.root t := hlarger.root_eq h ht (by simp [hh])
          have hrootHas : s.Has (s.root t) := h.has_follow s.size ht
          have hother? : r.2.head? t = some head := by
            rw [head?, hsame, hlarger.grows.node_eq hrootHas]
            exact hh
          have hotherClean : (r.2.summary (r.2.root t)).hasError = false := by
            rw [hsame, hlarger.grows.summary_eq hrootHas]
            exact herror h hroot
          refine .inr (.inr (congrArg some ?_))
          rcases hok with hok | hok
          · exact head_eq_of_unify hown? hother? hownClean hotherClean (.inl hfixed) hok
          · exact (head_eq_of_unify hother? hown? hotherClean hownClean (.inr hfixed) hok).symm

end WellFormed

end TypeStore

namespace Declarations

/-- The impls that are listed under a head, or apart. -/
def bucket (d : Declarations) : Option Head → List ImplId
  | some head => d.headIndex.getD head []
  | none => d.headless

/-- The declarations were made one after the other, the impls in earlier states of the store,
which work of any kind has led on; in their self types neither a variable nor an error is
written. -/
inductive Registered (s : TypeStore) : Declarations → Prop where
  | empty : Registered s .empty
  | trait {d : Declarations} (h : Registered s d) (decl : TraitDecl) :
      Registered s (d.addTrait decl).2
  | impl {d : Declarations} (h : Registered s d) {past : TypeStore} (reached : Descent new past)
      (later : Descent past s) {decl : ImplDecl} (has : past.Has decl.self)
      (fixed : (past.written decl.self).Fixed) (clean : ¬ (past.written decl.self).HasError) :
      Registered s (d.addImpl past decl).2
  | deref {d : Declarations} (h : Registered s d) (rule : Rule) : Registered s (d.addDeref rule)
  | unsizing {d : Declarations} (h : Registered s d) (rule : Rule) :
      Registered s (d.addUnsizing rule)

variable {d : Declarations} {s : TypeStore} {id : ImplId} {decl : ImplDecl}

/-- The list that is kept for a head has the impls with that head, and the one beside the
index those without any. -/
theorem Indexed.mem_bucket (h : d.Indexed s) {head? : Option Head} :
    id ∈ d.bucket head? ↔
      ∃ decl, d.impl? id = some decl ∧ (s.written decl.self).head? = head? := by
  cases head? with
  | none => exact h.apart
  | some head => exact h.under

namespace Registered

/-- The self types are types of the store, without variables and errors. -/
theorem self_spec (h : Registered s d) (hs : s.WellFormed) (hdecl : d.impl? id = some decl) :
    s.Has decl.self ∧ (s.written decl.self).Fixed ∧ ¬ (s.written decl.self).HasError := by
  induction h with
  | empty => simp [Declarations.empty, impl?] at hdecl
  | trait _ _ ih => exact ih hdecl
  | impl _ reached later has fixed clean ih =>
      rcases impl?_addImpl.mp hdecl with hold | ⟨-, rfl⟩
      · exact ih hold
      · have hpast := (reached.intact_grows new_intact).1
        have hgrows := (later.intact_grows hpast).2
        rw [hpast.wellFormed.written_grows hs hgrows has]
        exact ⟨hgrows.has has, fixed, clean⟩
  | deref _ _ ih => exact ih hdecl
  | unsizing _ _ ih => exact ih hdecl

/-- Whatever was registered one by one is indexed. -/
theorem indexed (h : Registered s d) (hs : s.WellFormed) : d.Indexed s := by
  induction h with
  | empty => exact ⟨by simp [Declarations.empty, impl?], by simp [Declarations.empty, impl?]⟩
  | trait _ _ ih => exact ⟨ih.under, ih.apart⟩
  | impl _ reached later has fixed _ ih =>
      have hpast := (reached.intact_grows new_intact).1
      have hgrows := (later.intact_grows hpast).2
      refine ih.addImpl hs hpast.wellFormed hgrows has ?_
      rwa [hpast.wellFormed.written_grows hs hgrows has]
  | deref _ _ ih => exact ⟨ih.under, ih.apart⟩
  | unsizing _ _ ih => exact ⟨ih.under, ih.apart⟩

/-- The implementors of a trait are the impls that name it. -/
theorem mem_implementors (h : Registered s d) {traitId : TraitId} :
    id ∈ d.implementors traitId ↔
      ∃ decl, d.impl? id = some decl ∧ decl.trait? = some traitId := by
  induction h with
  | empty => simp [Declarations.empty, implementors, impl?]
  | trait _ _ ih => exact ih
  | impl _ _ _ _ _ _ ih => exact mem_implementors_addImpl_iff ih
  | deref _ _ ih => exact ih
  | unsizing _ _ ih => exact ih

end Registered

/-- A new impl comes after all others. -/
theorem pairwise_push {ids : List ImplId} (h : ids.Pairwise (· < ·))
    (hold : ∀ id ∈ ids, ∃ decl, d.impl? id = some decl) :
    (ids ++ [(⟨d.impls.size⟩ : ImplId)]).Pairwise (· < ·) := by
  refine List.pairwise_append.mpr ⟨h, List.pairwise_singleton _ _, fun a ha b hb => ?_⟩
  obtain ⟨decl, hdecl⟩ := hold a ha
  obtain ⟨hlt, -⟩ := Array.getElem?_eq_some_iff.mp hdecl
  rw [List.mem_singleton.mp hb]
  exact hlt

/-- The list under a key stays in order, as the new impl has the highest number. -/
theorem pairwise_indexUnder {κ : Type} [BEq κ] [Hashable κ] [LawfulBEq κ] [LawfulHashable κ]
    {index : Std.HashMap κ (List ImplId)} {sought key : κ}
    (h : (index.getD sought []).Pairwise (· < ·))
    (hold : ∀ id ∈ index.getD sought [], ∃ decl, d.impl? id = some decl) :
    ((indexUnder index key ⟨d.impls.size⟩).getD sought []).Pairwise (· < ·) := by
  unfold indexUnder
  rw [Std.HashMap.getD_insert]
  split
  · next heq =>
      obtain rfl := eq_of_beq heq
      exact pairwise_push h hold
  · exact h

/-- Declaring an impl puts it at the end of one of these lists and leaves the others. -/
theorem pairwise_bucket_addImpl {past : TypeStore} {head? : Option Head}
    (h : (d.bucket head?).Pairwise (· < ·))
    (hold : ∀ id ∈ d.bucket head?, ∃ decl, d.impl? id = some decl) :
    ((d.addImpl past decl).2.bucket head?).Pairwise (· < ·) := by
  cases hcase : past.head? decl.self with
  | none =>
      cases head? with
      | none =>
          simp only [bucket, addImpl, hcase]
          exact pairwise_push h hold
      | some head =>
          simp only [bucket, addImpl, hcase]
          exact h
  | some key =>
      cases head? with
      | none =>
          simp only [bucket, addImpl, hcase]
          exact h
      | some head =>
          simp only [bucket, addImpl, hcase]
          exact pairwise_indexUnder h hold

/-- The implementors stay in order likewise. -/
theorem pairwise_implementors_addImpl {past : TypeStore} {traitId : TraitId}
    (h : (d.implementors traitId).Pairwise (· < ·))
    (hold : ∀ id ∈ d.implementors traitId, ∃ decl, d.impl? id = some decl) :
    ((d.addImpl past decl).2.implementors traitId).Pairwise (· < ·) := by
  unfold implementors addImpl
  cases decl.trait? with
  | none => exact h
  | some key => exact pairwise_indexUnder h hold

/-- **Every list is in the order of declaration.** -/
theorem Registered.pairwise (h : Registered s d) (hs : s.WellFormed) :
    (∀ head?, (d.bucket head?).Pairwise (· < ·)) ∧
      ∀ traitId, (d.implementors traitId).Pairwise (· < ·) := by
  induction h with
  | empty =>
      refine ⟨fun head? => ?_, fun traitId => by simp [Declarations.empty, implementors]⟩
      cases head? <;> simp [Declarations.empty, bucket]
  | trait _ _ ih => exact ⟨fun head? => ih.1 head?, ih.2⟩
  | @impl d h _ _ _ _ _ _ _ ih =>
      obtain ⟨hbuckets, htraits⟩ := ih
      constructor
      · intro head?
        refine pairwise_bucket_addImpl (hbuckets head?) fun id hid => ?_
        obtain ⟨decl, hdecl, -⟩ := (h.indexed hs).mem_bucket.mp hid
        exact ⟨decl, hdecl⟩
      · intro traitId
        refine pairwise_implementors_addImpl (htraits traitId) fun id hid => ?_
        obtain ⟨decl, hdecl, -⟩ := h.mem_implementors.mp hid
        exact ⟨decl, hdecl⟩
  | deref _ _ ih => exact ⟨fun head? => ih.1 head?, ih.2⟩
  | unsizing _ _ ih => exact ⟨fun head? => ih.1 head?, ih.2⟩

/-- Merging the two lists that a head is sought in keeps the order. -/
theorem Indexed.pairwise_implsFor (h : d.Indexed s)
    (hbuckets : ∀ head?, (d.bucket head?).Pairwise (· < ·)) (head? : Option Head) :
    (d.implsFor head?).Pairwise (· < ·) := by
  cases head? with
  | none => exact pairwise_allImpls
  | some head =>
      have hweak : ∀ head?, (d.bucket head?).Pairwise fun a b => a.index ≤ b.index := fun head? =>
        (hbuckets head?).imp fun hlt => Nat.le_of_lt hlt
      have hsorted := @List.pairwise_merge ImplId (fun a b => decide (a.index ≤ b.index))
        (fun a b c hab hbc => by simp only [decide_eq_true_eq] at *; omega)
        (fun a b => by simp only [Bool.or_eq_true, decide_eq_true_eq]; omega)
        (d.bucket (some head)) (d.bucket none) (by simpa using hweak (some head))
        (by simpa using hweak none)
      -- no impl is in both lists, so none comes twice
      have hnodup : (d.implsFor (some head)).Nodup := by
        have hperm : (d.implsFor (some head)).Perm (d.bucket (some head) ++ d.bucket none) :=
          List.merge_perm_append _
        rw [hperm.nodup_iff, List.nodup_append]
        refine ⟨Ascending.nodup ImplId.lt_asymm (hbuckets _),
          Ascending.nodup ImplId.lt_asymm (hbuckets _), fun a ha b hb hab => ?_⟩
        subst hab
        obtain ⟨decl, hdecl, hsome⟩ := h.mem_bucket.mp ha
        obtain ⟨decl', hdecl', hnone⟩ := h.mem_bucket.mp hb
        rw [Option.some.inj (hdecl.symm.trans hdecl'), hnone] at hsome
        cases hsome
      refine (hsorted.and hnodup).imp fun {a b} hab => ?_
      obtain ⟨hle, hne⟩ := hab
      simp only [decide_eq_true_eq] at hle
      refine Nat.lt_of_le_of_ne hle fun heq => hne ?_
      cases a
      cases b
      exact congrArg ImplId.mk heq

/-- **The index is complete and exact.**  However impls were declared whose self types have
no variables and errors, in whatever store work of any kind has led to: every impl is listed
under one head or apart, once; the impls sought are in the order of declaration; an impl a
fresh instance of whose self type unifies with a type, at whose root no error is written, is
among those sought by the head of that type; those sought by a head have this head or none;
and the impls of a trait are listed with it, in order. -/
theorem Registered.index_exact (h : Registered s d) (hs : Descent new s) :
    (∀ id decl, d.impl? id = some decl → ∃! head? : Option Head, id ∈ d.bucket head?) ∧
    (∀ head?, (d.bucket head?).Pairwise (· < ·) ∧ (d.implsFor head?).Pairwise (· < ·)) ∧
    (∀ t, s.Has t → ¬ (s.written (s.root t)).HasError → ∀ id decl, d.impl? id = some decl →
      let vars := (newVars decl.arity).run s
      let self := (instantiate decl.self vars.1).run vars.2
      ((unify self.1 t).run self.2).1 = .ok () ∨ ((unify t self.1).run self.2).1 = .ok () →
        id ∈ d.implsFor (s.head? t)) ∧
    (∀ head id, id ∈ d.implsFor (some head) → ∃ decl, d.impl? id = some decl ∧
      (s.head? decl.self = some head ∨ s.head? decl.self = none)) ∧
    ∀ traitId, (d.implementors traitId).Pairwise (· < ·) ∧
      ∀ id, id ∈ d.implementors traitId ↔
        ∃ decl, d.impl? id = some decl ∧ decl.trait? = some traitId := by
  have hwf := (hs.intact_grows new_intact).1.wellFormed
  have hindexed := h.indexed hwf
  obtain ⟨hbuckets, htraits⟩ := h.pairwise hwf
  refine ⟨fun id decl hdecl => ?_,
    fun head? => ⟨hbuckets head?, hindexed.pairwise_implsFor hbuckets head?⟩,
    fun t ht hroot id decl hdecl => ?_, fun head id hid => ?_,
    fun traitId => ⟨htraits traitId, fun id => h.mem_implementors⟩⟩
  · refine ⟨(s.written decl.self).head?, hindexed.mem_bucket.mpr ⟨decl, hdecl, rfl⟩, ?_⟩
    intro head? hid
    obtain ⟨decl', hdecl', hhead⟩ := hindexed.mem_bucket.mp hid
    rw [Option.some.inj (hdecl.symm.trans hdecl'), hhead]
  · intro vars self hok
    obtain ⟨hself, -, hclean⟩ := h.self_spec hwf hdecl
    exact hindexed.mem_implsFor.mpr ⟨decl, hdecl,
      hwf.heads_of_unify_fresh hself ht hclean hroot decl.arity hok⟩
  · obtain ⟨decl, hdecl, hhead⟩ := hindexed.mem_implsFor.mp hid
    obtain ⟨-, hfixed, -⟩ := h.self_spec hwf hdecl
    rw [← head?_eq_written hwf hfixed] at hhead
    exact ⟨decl, hdecl, by simpa [or_comm] using hhead⟩

/-- An impl for `i32` is sought for `i32` and not for `bool`. -/
theorem index_exact_primitive :
    let d := (empty.addImpl new ⟨none, [], .ofPrimitive .i32, [], []⟩).2
    ⟨0⟩ ∈ d.implsFor (new.head? (.ofPrimitive .i32)) ∧ ⟨0⟩ ∉ d.implsFor (some (.prim .bool)) := by
  intro d
  have hi32 : new.node (.ofPrimitive .i32) = .atom (.prim .i32) := by decide
  have hwritten := WellFormed.written_of_atom hi32
  have hhas : new.Has (.ofPrimitive .i32) := by decide
  have hroot : new.root (.ofPrimitive .i32) = .ofPrimitive .i32 := root_of_no_link (by decide)
  have hregistered : Registered new d := .impl .empty (.nil new) (.nil new) hhas
    (by simp [hwritten, Tree.Fixed]) (by simp [hwritten, Tree.HasError, Atom.IsError])
  have hfirst : d.impl? ⟨0⟩ = some ⟨none, [], .ofPrimitive .i32, [], []⟩ := rfl
  obtain ⟨-, -, hcomplete, hexact, -⟩ := hregistered.index_exact (.nil new)
  refine ⟨hcomplete _ hhas ?_ ⟨0⟩ _ hfirst (.inl ?_), fun hid => ?_⟩
  · simp [hroot, hwritten, Tree.HasError, Atom.IsError]
  · decide +kernel
  · obtain ⟨decl, hdecl, hhead⟩ := hexact _ _ hid
    rw [← Option.some.inj (hfirst.symm.trans hdecl), TypeStore.head?, hroot, hi32] at hhead
    simp [Node.head?, Atom.head?] at hhead

end Declarations

end DotCall
