import DotCall.Proofs.LinkOrder

/-!
# How links may change

There are two kinds of change.  `Keeps`: links are at most shortened to the end
of their chain and new variables are not linked, so every root and every
meaning stays what it was.  `Extends`: variables that were free may be linked as
well, so a root may move on, but what was linked stays linked to the same.

A free variable may be linked to any type that does not mean a tree with that
variable in it; then no circle arises (`Ordered.link`).
-/

namespace DotCall.TypeStore

open Relation

/-- Bindings stay, except that a link may now point to the end of its chain;
new variables are not linked. -/
structure Keeps (s s' : TypeStore) : Prop where
  grows : Grows s s'
  binding : ∀ id < s.variableCount, s'.binding id = s.binding id ∨
    ∃ t, s.binding id = .linked t ∧ s'.binding id = .linked (s.root t)
  fresh : ∀ id, s.variableCount ≤ id → ∀ t, s'.binding id ≠ .linked t

/-- What was linked stays linked to the same, what was generic stays so, and
what was free may have been linked. -/
structure Extends (s s' : TypeStore) : Prop where
  grows : Grows s s'
  linked : ∀ {id t}, s.binding id = .linked t →
    ∃ t', s'.binding id = .linked t' ∧ s'.root t' = s'.root t
  generic : ∀ {id name}, s.binding id = .generic name → s'.binding id = .generic name
  free : ∀ {id i name}, id < s.variableCount → s.binding id = .free i name →
    s'.binding id = .free i name ∨ ∃ t, s'.binding id = .linked t

/-- Only the variables of the store have a binding of their own. -/
theorem lt_of_binding {s : TypeStore} {id : Nat} {b : Binding} (h : s.binding id = b)
    (hne : b ≠ .free id none) : id < s.variableCount := by
  by_cases hlt : id < s.variableCount
  · exact hlt
  · have hnone : s.bindings[id]? = none := Array.getElem?_eq_none (Nat.le_of_not_lt hlt)
    exact absurd (by simpa [TypeStore.binding, hnone] using h.symm) hne

namespace Keeps

variable {s s' s'' : TypeStore} {t u : TypeId} {id : Nat}

/-- A binding that is no link stays as it is. -/
theorem binding_of_not_linked (h : Keeps s s') (hid : id < s.variableCount)
    (hn : ∀ t, s.binding id ≠ .linked t) : s'.binding id = s.binding id := by
  rcases h.binding id hid with hb | ⟨t, hb, -⟩
  · exact hb
  · exact absurd hb (hn t)

/-- Where two stretches of work leave only free variables behind, so do both in turn. -/
theorem free_trans (h' : Keeps s' s'')
    (hfree : ∀ id, s.variableCount ≤ id → id < s'.variableCount →
      ∃ name, s'.binding id = .free id name)
    (hfree' : ∀ id, s'.variableCount ≤ id → id < s''.variableCount →
      ∃ name, s''.binding id = .free id name) :
    ∀ id, s.variableCount ≤ id → id < s''.variableCount →
      ∃ name, s''.binding id = .free id name := by
  intro id hge hlt
  by_cases hid : id < s'.variableCount
  · obtain ⟨name, hb⟩ := hfree id hge hid
    exact ⟨name, (h'.binding_of_not_linked hid (by simp [hb])).trans hb⟩
  · exact hfree' id (Nat.le_of_not_lt hid) hlt

/-- Where bindings were only shortened, each link leads where it led before or to the root
of that. -/
theorem linked_cases (h : Keeps s s') (hb : s'.binding id = .linked u) :
    ∃ t, s.binding id = .linked t ∧ (u = t ∨ u = s.root t) := by
  by_cases hid : id < s.variableCount
  · rcases h.binding id hid with hsame | ⟨t, hold, hnew⟩
    · exact ⟨u, hsame ▸ hb, .inl rfl⟩
    · exact ⟨t, hold, .inr (Binding.linked.inj (hb.symm.trans hnew))⟩
  · exact absurd hb (h.fresh id (Nat.le_of_not_lt hid) u)

/-- No type of the store becomes linked. -/
theorem link?_none (h : Keeps s s') (ht : s.Has t) (hl : s.link? t = none) :
    s'.link? t = none := by
  rw [link?_eq_none] at hl ⊢
  intro id u hn hb
  rw [h.grows.node_eq ht] at hn
  obtain ⟨w, hw, -⟩ := h.linked_cases hb
  exact hl id w hn hw

/-- A linked type stays linked, to the same type or to its root. -/
theorem link?_some (h : Keeps s s') (hs : s.WellFormed) (ht : s.Has t)
    (hl : s.link? t = some (id, u)) :
    s'.link? t = some (id, u) ∨ s'.link? t = some (id, s.root u) := by
  obtain ⟨hn, hb⟩ := link?_eq_some.mp hl
  have hn' : s'.node t = .atom (.var id) := (h.grows.node_eq ht).trans hn
  rcases h.binding id (hs.var_lt hn) with hsame | ⟨w, hold, hnew⟩
  · exact .inl (link?_eq_some.mpr ⟨hn', hsame.trans hb⟩)
  · obtain rfl : u = w := Binding.linked.inj (hb.symm.trans hold)
    exact .inr (link?_eq_some.mpr ⟨hn', hnew⟩)

/-- A step down on an old type was a way down before. -/
theorem descends (h : Keeps s s') (hs : s.Ordered) (ht : s.Has t) {c : TypeId}
    (hc : s'.Descends c t) : TransGen s.Descends c t := by
  rcases hc with hc | ⟨id, hc⟩
  · exact .single (.inl (h.grows.node_eq ht ▸ hc))
  · obtain ⟨hn, hb⟩ := link?_eq_some.mp hc
    rw [h.grows.node_eq ht] at hn
    obtain ⟨u, hu, rfl | rfl⟩ := h.linked_cases hb
    · exact .single (.inr ⟨id, link?_eq_some.mpr ⟨hn, hu⟩⟩)
    · exact TransGen.tail' (hs.descends_root u) (.inr ⟨id, link?_eq_some.mpr ⟨hn, hu⟩⟩)

/-- No circle arises. -/
theorem ordered (h : Keeps s s') (hs : s.Ordered) (hs' : s'.WellFormed) : s'.Ordered := by
  have hold : ∀ t, s.Has t → Acc s'.Descends t := by
    intro t
    induction t using hs.acyclic.transGen.induction with
    | _ t ih =>
        intro ht
        refine ⟨t, fun c hc => ?_⟩
        have hway := h.descends hs ht hc
        obtain ⟨d, hlast, -⟩ := TransGen.head'_iff.mp hway
        exact ih c hway (hs.wellFormed.has_of_descends hlast)
  refine ⟨hs', ⟨fun t => ?_⟩⟩
  -- a new type is only reached from later ones, and its arguments come before it
  induction t using hs'.handle_induction with
  | step t ih =>
      refine ⟨t, fun c hc => ?_⟩
      rcases hc with hc | ⟨id, hc⟩
      · exact ih c hc
      · obtain ⟨u, hu, rfl | rfl⟩ := h.linked_cases (link?_eq_some.mp hc).2
        · exact hold c (hs.wellFormed.linked_has hu)
        · exact hold _ (hs.has_root (hs.wellFormed.linked_has hu))

/-- Roots stay. -/
theorem root_eq (h : Keeps s s') (hs : s.Ordered) (hs' : s'.Ordered) (ht : s.Has t) :
    s'.root t = s.root t := by
  induction t using hs.link_induction with
  | here t hl => rw [root_of_no_link hl, root_of_no_link (h.link?_none ht hl)]
  | link t id u hl ih =>
      have hu : s.Has u := hs.wellFormed.linked_has (link?_eq_some.mp hl).2
      rw [hs.root_of_link hl]
      rcases h.link?_some hs.wellFormed ht hl with hl' | hl'
      · rw [hs'.root_of_link hl', ih hu]
      · rw [hs'.root_of_link hl']
        exact root_of_no_link (h.link?_none (hs.has_root hu) (hs.link?_root u))

/-- Meanings stay. -/
theorem meaning_eq (h : Keeps s s') (hs : s.Ordered) (hs' : s'.Ordered) (ht : s.Has t) :
    s'.meaning t = s.meaning t := by
  induction t using hs.root_induction with
  | step t ih =>
      have hroot := h.root_eq hs hs' ht
      have hnode := h.grows.node_eq (hs.has_root ht)
      cases hn : s.node (s.root t) with
      | atom a => rw [meaning_of_atom hn, meaning_of_atom (by rw [hroot, hnode, hn])]
      | app f args =>
          rw [hs.meaning_of_app hn, hs'.meaning_of_app (by rw [hroot, hnode, hn])]
          simp only [Tree.app.injEq, true_and]
          refine List.map_congr_left fun a ha => ?_
          have hmem : a ∈ (s.node (s.root t)).args := by simpa [hn, Node.args] using ha
          exact ih a hmem (hs.wellFormed.has_arg hmem)

/-- What was linked is still linked to the same root. -/
theorem linked_root (h : Keeps s s') (hs : s.Ordered) (hs' : s'.Ordered)
    (hb : s.binding id = .linked t) : ∃ v, s'.binding id = .linked v ∧ s'.root v = s.root t := by
  have ht : s.Has t := hs.wellFormed.linked_has hb
  rcases h.binding id (lt_of_binding hb (by simp)) with hsame | ⟨u, hold, hnew⟩
  · exact ⟨t, hsame.trans hb, h.root_eq hs hs' ht⟩
  · obtain rfl : t = u := Binding.linked.inj (hb.symm.trans hold)
    exact ⟨s.root t, hnew, by rw [h.root_eq hs hs' (hs.has_root ht), hs.root_root]⟩

theorem refl (s : TypeStore) : Keeps s s where
  grows := .refl s
  binding _ _ := .inl rfl
  fresh id hid t hb := Nat.not_lt_of_le hid (lt_of_binding hb (by simp))

/-- Shortening twice is shortening once, for the root of a root is the root. -/
theorem trans (h : Keeps s s') (h' : Keeps s' s'') (hs : s.Ordered) (hs' : s'.Ordered) :
    Keeps s s'' where
  grows := h.grows.trans h'.grows
  binding id hid := by
    have hid' : id < s'.variableCount := Nat.lt_of_lt_of_le hid h.grows.count_le
    rcases h.binding id hid with hb | ⟨t, hb, hnew⟩
    · rcases h'.binding id hid' with hb' | ⟨t, ht, hnew'⟩
      · exact .inl (hb'.trans hb)
      · have htb : s.binding id = .linked t := hb ▸ ht
        refine .inr ⟨t, htb, ?_⟩
        rw [hnew', h.root_eq hs hs' (hs.wellFormed.linked_has htb)]
    · refine .inr ⟨t, hb, ?_⟩
      rcases h'.binding id hid' with hb' | ⟨u, hu, hnew'⟩
      · exact hb'.trans hnew
      · obtain rfl : s.root t = u := Binding.linked.inj (hnew.symm.trans hu)
        have hhas := hs.has_root (hs.wellFormed.linked_has hb)
        rw [hnew', h.root_eq hs hs' hhas, hs.root_root]
  fresh id hid t hb := by
    obtain ⟨u, hu, -⟩ := h'.linked_cases hb
    exact h.fresh id hid u hu

/-- Work that only adds types keeps all links. -/
theorem of_adds (h : Adds s s') : Keeps s s' where
  grows := h.grows
  binding id _ := .inl (by rw [h.binding_eq])
  fresh id hid t hb := by
    rw [h.binding_eq] at hb
    exact Nat.not_lt_of_le hid (lt_of_binding hb (by simp))

/-- Links do not depend on the trail and the checkpoints. -/
theorem of_eq (hentries : s'.entries = s.entries) (hbindings : s'.bindings = s.bindings) :
    Keeps s s' where
  grows := .of_entries_eq hentries (by rw [variableCount, variableCount, hbindings])
  binding id _ := .inl (by rw [TypeStore.binding, TypeStore.binding, hbindings])
  fresh id hid t hb := by
    rw [TypeStore.binding, hbindings] at hb
    exact Nat.not_lt_of_le hid (lt_of_binding hb (by simp))

/-- Reverting keeps the links of before. -/
theorem of_reverts {m : TypeStore} (h : Reverts s m s') (hg : Grows s m) : Keeps s s' where
  grows := h.grows hg
  binding id hid := .inl (h.old id hid)
  fresh id hid t hb := by
    have hlt : id < m.variableCount := h.count ▸ lt_of_binding hb (by simp)
    rcases h.born id hid hlt with ⟨name, u, hborn, -⟩ | ⟨name, u, hborn, -⟩
    · rw [hborn] at hb; cases hb
    · rw [hborn] at hb; cases hb

/-- Keeping all links is the least extension. -/
theorem toExtends (h : Keeps s s') (hs : s.Ordered) (hs' : s'.Ordered) : Extends s s' where
  grows := h.grows
  linked {id t} hb := by
    obtain ⟨v, hv, hroot⟩ := h.linked_root hs hs' hb
    exact ⟨v, hv, hroot.trans (h.root_eq hs hs' (hs.wellFormed.linked_has hb)).symm⟩
  generic {id name} hb := by
    have hid : id < s.variableCount := lt_of_binding hb (by simp)
    rw [h.binding_of_not_linked hid (by simp [hb]), hb]
  free {id i name} hid hb := .inl (by rw [h.binding_of_not_linked hid (by simp [hb]), hb])

end Keeps

namespace Extends

variable {s s' s'' : TypeStore} {t : TypeId}

/-- The root of a type is found from its earlier root. -/
theorem root_root (h : Extends s s') (hs : s.Ordered) (hs' : s'.Ordered) (ht : s.Has t) :
    s'.root (s.root t) = s'.root t := by
  induction t using hs.link_induction with
  | here t hl => rw [root_of_no_link hl]
  | link t id u hl ih =>
      obtain ⟨hn, hb⟩ := link?_eq_some.mp hl
      obtain ⟨u', hb', hroot⟩ := h.linked hb
      have hl' : s'.link? t = some (id, u') :=
        link?_eq_some.mpr ⟨(h.grows.node_eq ht).trans hn, hb'⟩
      rw [hs.root_of_link hl, ih (hs.wellFormed.linked_has hb), hs'.root_of_link hl', hroot]

/-- A compound root stays the root. -/
theorem root_of_app (h : Extends s s') (hs : s.Ordered) (hs' : s'.Ordered) (ht : s.Has t)
    {f : Former} {args : List TypeId} (hn : s.node (s.root t) = .app f args) :
    s'.root t = s.root t := by
  rw [← h.root_root hs hs' ht]
  apply root_of_no_link
  exact link?_of_app ((h.grows.node_eq (hs.has_root ht)).trans hn)

theorem refl (s : TypeStore) : Extends s s :=
  ⟨.refl s, fun hb => ⟨_, hb, rfl⟩, fun hb => hb, fun _ hb => .inl hb⟩

/-- A store that extends an extension extends the first; what was linked in between has
kept its meaning since. -/
theorem trans (h : Extends s s') (h' : Extends s' s'') (hs : s.Ordered) (hs' : s'.Ordered)
    (hs'' : s''.Ordered) : Extends s s'' where
  grows := h.grows.trans h'.grows
  linked {id t} hb := by
    obtain ⟨t', hb', hroot⟩ := h.linked hb
    obtain ⟨t'', hb'', hroot'⟩ := h'.linked hb'
    refine ⟨t'', hb'', ?_⟩
    have ht : s'.Has t := h.grows.has (hs.wellFormed.linked_has hb)
    rw [hroot', ← h'.root_root hs' hs'' (hs'.wellFormed.linked_has hb'), hroot,
      h'.root_root hs' hs'' ht]
  generic hb := h'.generic (h.generic hb)
  free {id i name} hid hb := by
    rcases h.free hid hb with hb' | ⟨t, hb'⟩
    · exact h'.free (Nat.lt_of_lt_of_le hid h.grows.count_le) hb'
    · obtain ⟨t'', hb'', -⟩ := h'.linked hb'
      exact .inr ⟨t'', hb''⟩

end Extends

/-- The variable `id` can be linked to `u`: it is not linked yet and does not
occur in what `u` means. -/
structure Linkable (s : TypeStore) (id : Nat) (u : TypeId) : Prop where
  lt : id < s.variableCount
  free : ∀ t, s.binding id ≠ .linked t
  has : s.Has u
  absent : .var id ∉ (s.meaning u).atoms

/-- A new link changes the binding of its variable only. -/
theorem Linkable.binding_eq {s : TypeStore} {id v : Nat} {u : TypeId} (hu : Linkable s id u) :
    (s.assigned id (.linked u)).binding v = if v = id then .linked u else s.binding v :=
  assigned_binding hu.lt

/-- A new link adds one way down, from its variable to the type that it is linked to. -/
theorem Linkable.descends {s : TypeStore} {id : Nat} {u c t : TypeId} (hu : Linkable s id u)
    (hc : (s.assigned id (.linked u)).Descends c t) :
    s.Descends c t ∨ (c = u ∧ s.node t = .atom (.var id)) := by
  rcases hc with hc | ⟨v, hc⟩
  · exact .inl (.inl hc)
  · obtain ⟨hn, hb⟩ := link?_eq_some.mp hc
    have hn : s.node t = .atom (.var v) := hn
    rw [hu.binding_eq] at hb
    split at hb
    · next heq => exact .inr ⟨(Binding.linked.inj hb).symm, heq ▸ hn⟩
    · exact .inl (.inr ⟨v, link?_eq_some.mpr ⟨hn, hb⟩⟩)

/-- A new link of an inference variable extends the store. -/
theorem Linkable.toExtends {s : TypeStore} {id : Nat} {u : TypeId} (hu : Linkable s id u)
    (hg : ∀ name, s.binding id ≠ .generic name) : Extends s (s.assigned id (.linked u)) where
  grows := assigned_grows
  linked {v t} hb := by
    have hne : v ≠ id := fun heq => hu.free t (heq ▸ hb)
    exact ⟨t, by rw [hu.binding_eq, if_neg hne, hb], rfl⟩
  generic {v name} hb := by
    have hne : v ≠ id := fun heq => hg name (heq ▸ hb)
    rw [hu.binding_eq, if_neg hne, hb]
  free {v i name} hv hb := by
    by_cases heq : v = id
    · exact .inr ⟨u, by rw [hu.binding_eq, if_pos heq]⟩
    · exact .inl (by rw [hu.binding_eq, if_neg heq, hb])

namespace Ordered

variable {s : TypeStore} {t u : TypeId} {id : Nat}

/-- A type that can be reached occurs, with its variable, in the meaning. -/
theorem mem_meaning_of_descends (h : s.Ordered) {v : TypeId} (hv : s.node v = .atom (.var id))
    (hl : s.link? v = none) (hway : ReflTransGen s.Descends v t) :
    .var id ∈ (s.meaning t).atoms := by
  induction hway with
  | refl =>
      rw [meaning_of_atom (by rw [root_of_no_link hl, hv])]
      simp
  | @tail c t _ hstep ih =>
      rcases hstep with hc | ⟨i, hc⟩
      · cases hn : s.node t with
        | atom a => simp [hn, Node.args] at hc
        | app f args =>
            have hroot := root_of_no_link (link?_of_app hn)
            rw [h.meaning_of_app (by rw [hroot, hn]), Tree.mem_atoms_app]
            have hmem : c ∈ args := by simpa [hn, Node.args] using hc
            exact ⟨_, List.mem_map_of_mem hmem, ih⟩
      · rw [h.meaning_of_link hc]
        exact ih

/-- A variable that occurs in a meaning can be reached. -/
theorem descends_of_mem_meaning (h : s.Ordered) (hid : .var id ∈ (s.meaning t).atoms) :
    ∃ v, s.node v = .atom (.var id) ∧ s.link? v = none ∧ ReflTransGen s.Descends v t := by
  induction t using h.root_induction with
  | step t ih =>
      cases hn : s.node (s.root t) with
      | atom a =>
          rw [meaning_of_atom hn] at hid
          obtain rfl : Atom.var id = a := by simpa using hid
          exact ⟨s.root t, hn, h.link?_root t, h.descends_root t⟩
      | app f args =>
          rw [h.meaning_of_app hn] at hid
          obtain ⟨_, hmem, hid⟩ := Tree.mem_atoms_app.mp hid
          obtain ⟨a, ha, rfl⟩ := List.mem_map.mp hmem
          have harg : a ∈ (s.node (s.root t)).args := by simpa [hn, Node.args] using ha
          obtain ⟨v, hv, hl, hway⟩ := ih a harg hid
          exact ⟨v, hv, hl, (hway.tail (.inl harg)).trans (h.descends_root t)⟩

/-- A store in which a link is made to a type that it has stays well-formed. -/
theorem link_wellFormed (h : s.Ordered) (hu : Linkable s id u) :
    (s.assigned id (.linked u)).WellFormed := by
  refine h.wellFormed.rebind rfl rfl (Nat.le_of_eq assigned_count.symm) ?_
  intro v t hb
  rw [hu.binding_eq] at hb
  split at hb
  · exact Binding.linked.inj hb ▸ hu.has
  · exact h.wellFormed.linked_has hb

/-- **The occurs check is enough.**  Linking a free variable to a type whose
meaning is free of it makes no circle. -/
theorem link (h : s.Ordered) (hu : Linkable s id u) : (s.assigned id (.linked u)).Ordered := by
  refine ⟨h.link_wellFormed hu, ⟨fun t => ?_⟩⟩
  -- from the target, and from whatever cannot reach the variable, the new link is never taken
  have hsafe : ∀ t, (∀ v, s.node v = .atom (.var id) → ¬ ReflTransGen s.Descends v t) →
      Acc (s.assigned id (.linked u)).Descends t := by
    intro t
    induction t using h.acyclic.induction with
    | _ t ih =>
        intro hfar
        refine ⟨t, fun c hc => ?_⟩
        rcases hu.descends hc with hc | ⟨-, ht⟩
        · exact ih c hc fun v hv hway => hfar v hv (hway.tail hc)
        · exact absurd .refl (hfar t ht)
  have htarget : Acc (s.assigned id (.linked u)).Descends u := by
    refine hsafe u fun v hv hway => hu.absent ?_
    refine h.mem_meaning_of_descends hv ?_ hway
    exact link?_eq_none.mpr fun i w hn => by
      obtain rfl : id = i := by simpa [hv] using hn
      exact hu.free w
  induction t using h.acyclic.induction with
  | _ t ih =>
      refine ⟨t, fun c hc => ?_⟩
      rcases hu.descends hc with hc | ⟨rfl, -⟩
      · exact ih c hc
      · exact htarget

/-- Where a way of links ended at the variable it now goes on to the root of the
type; all other roots stay. -/
theorem root_linked (h : s.Ordered) (hu : Linkable s id u) (t : TypeId) :
    (s.assigned id (.linked u)).root t =
      if s.node (s.root t) = .atom (.var id) then s.root u else s.root t := by
  have h' := h.link hu
  have hlink : ∀ {t v i}, s.link? t = some (i, v) →
      (s.assigned id (.linked u)).link? t = some (i, v) := by
    intro t v i hl
    obtain ⟨hn, hb⟩ := link?_eq_some.mp hl
    have hne : i ≠ id := fun heq => hu.free v (heq ▸ hb)
    exact link?_eq_some.mpr ⟨hn, by rw [hu.binding_eq, if_neg hne, hb]⟩
  have hstay : ∀ t, s.node (s.root t) ≠ .atom (.var id) →
      (s.assigned id (.linked u)).root t = s.root t := by
    intro t
    induction t using h.link_induction with
    | here t hl =>
        intro hne
        rw [root_of_no_link hl] at hne ⊢
        have hsame : (s.assigned id (.linked u)).link? t = s.link? t := by
          refine link?_congr rfl fun i hi => ?_
          have hid : i ≠ id := fun heq => hne (heq ▸ hi)
          rw [hu.binding_eq, if_neg hid]
        exact root_of_no_link (hsame.trans hl)
    | link t i v hl ih =>
        intro hne
        rw [h.root_of_link hl] at hne ⊢
        rw [h'.root_of_link (hlink hl), ih hne]
  have htarget : s.node (s.root u) ≠ .atom (.var id) := by
    intro hn
    apply hu.absent
    simp [meaning_of_atom hn]
  split
  · next hend =>
      induction t using h.link_induction with
      | here t hl =>
          rw [root_of_no_link hl] at hend
          have hnew : (s.assigned id (.linked u)).link? t = some (id, u) :=
            link?_eq_some.mpr ⟨hend, by rw [hu.binding_eq, if_pos rfl]⟩
          rw [h'.root_of_link hnew, hstay u htarget]
      | link t i v hl ih =>
          rw [h.root_of_link hl] at hend
          rw [h'.root_of_link (hlink hl), ih hend]
  · next hend => exact hstay t hend

end Ordered

end DotCall.TypeStore
