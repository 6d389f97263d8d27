import DotCall.Proofs.UnificationSteps

/-!
# Sound stores

Unification never links a variable to a type in which an error or a parameter
is written, and never touches a generic parameter.  A store whose links were
all made by it is sound.  In a sound store the summaries, which only see what is
written, are right about the meaning as well: an error or a parameter occurs in
the meaning of a type exactly when it is written in the type.
-/

namespace DotCall.TypeStore

/-- Neither an error nor a parameter is written in the type. -/
def Clean (s : TypeStore) (t : TypeId) : Prop :=
  (s.summary t).hasError = false ∧ (s.summary t).hasParam = false

/-- Links do not run in a circle and lead to clean types, and the types of
variables and of generic parameters have bindings of their sort. -/
structure Sound (s : TypeStore) : Prop where
  ordered : s.Ordered
  clean : ∀ {id t}, s.binding id = .linked t → s.Clean t
  var_sort : ∀ {t id}, s.node t = .atom (.var id) → ∀ name, s.binding id ≠ .generic name
  generic_sort : ∀ {t id}, s.node t = .atom (.generic id) → ∃ name, s.binding id = .generic name
  free_id : ∀ {id i name}, s.binding id = .free i name → i = id
  item : ∀ id < s.variableCount,
    (∃ t, s.node t = .atom (.var id)) ∨ ∃ t, s.node t = .atom (.generic id)

section Clean

variable {s s' : TypeStore} {t : TypeId}

/-- A store that grows keeps the summaries by which a type is clean. -/
theorem Grows.clean_iff (h : Grows s s') (ht : s.Has t) : s'.Clean t ↔ s.Clean t := by
  simp [Clean, h.summary_eq ht]

/-- The arguments of a clean type are clean. -/
theorem WellFormed.clean_arg (h : s.WellFormed) {f : Former} {args : List TypeId}
    (hn : s.node t = .app f args) (hc : s.Clean t) : ∀ a ∈ args, s.Clean a := by
  intro a ha
  have hsub : ∀ {fact : Summary → Bool} {sort : Atom → Prop}, Summary.Tracks fact sort →
      fact (s.summary t) = false → fact (s.summary a) = false := by
    intro fact sort htracks hfact
    rw [h.summary_node, hn, htracks.node_app, List.any_eq_false] at hfact
    simpa using hfact a ha
  exact ⟨hsub Summary.Tracks.hasError hc.1, hsub Summary.Tracks.hasParam hc.2⟩

/-- The equations of the arguments of clean types are between clean types. -/
theorem WellFormed.clean_parts (h : s.WellFormed) {a b : TypeId} {equations : List Equation}
    (hcmp : Compared s a b (.parts equations)) :
    ∀ e ∈ equations, s.Clean e.left ∧ s.Clean e.right := by
  cases hcmp with
  | parts hne herr hparam ha hb hlen =>
      intro e he
      obtain ⟨hl, hr⟩ := mem_argEquations he
      exact ⟨h.clean_arg ha ⟨herr.1, hparam.1⟩ _ hl, h.clean_arg hb ⟨herr.2, hparam.2⟩ _ hr⟩

end Clean

namespace Sound

variable {s s' : TypeStore} {t u : TypeId}

theorem wellFormed (h : s.Sound) : s.WellFormed := h.ordered.wellFormed

/-- The root of a clean type is clean. -/
theorem clean_root (h : s.Sound) (hc : s.Clean t) : s.Clean (s.root t) := by
  induction t using h.ordered.link_induction with
  | here t hl => rwa [root_of_no_link hl]
  | link t id u hl ih =>
      rw [h.ordered.root_of_link hl]
      exact ih (h.clean (link?_eq_some.mp hl).2)

/-- A linked type leads to a clean one. -/
theorem clean_of_link (h : s.Sound) {id : Nat} (hl : s.link? t = some (id, u)) : s.Clean u :=
  h.clean (link?_eq_some.mp hl).2

/-- **Summaries tell about meanings.**  An atom of a sort that summaries track,
other than variables, occurs in the meaning of a type exactly when it is
written in it, provided that links lead to types without it. -/
theorem summary_iff_meaning (h : s.Sound) {fact : Summary → Bool} {sort : Atom → Prop}
    (htracks : Summary.Tracks fact sort) (hvar : ∀ id, ¬ sort (.var id))
    (hclean : ∀ t, s.Clean t → fact (s.summary t) = false) (t : TypeId) :
    fact (s.summary t) = true ↔ ∃ a ∈ (s.meaning t).atoms, sort a := by
  induction t using h.ordered.acyclic.induction with
  | _ t ih =>
      cases hl : s.link? t with
      | some p =>
          have hstep : s.Descends p.2 t := .inr ⟨p.1, hl⟩
          have hn : s.node t = .atom (.var p.1) := (link?_eq_some.mp hl).1
          rw [h.ordered.meaning_of_link hl, ← ih p.2 hstep, hclean _ (h.clean_of_link hl),
            htracks.summary_iff h.wellFormed, WellFormed.written_of_atom hn]
          simpa using hvar p.1
      | none =>
          have hroot := root_of_no_link hl
          rw [h.wellFormed.summary_node]
          cases hn : s.node t with
          | atom a =>
              rw [meaning_of_atom (by rw [hroot, hn])]
              simp [Node.summary, htracks.atom]
          | app f args =>
              have harg : ∀ a ∈ args, s.Descends a t := fun a ha =>
                .inl (by simpa [hn, Node.args] using ha)
              rw [h.ordered.meaning_of_app (by rw [hroot, hn]), htracks.node_app,
                List.any_eq_true]
              simp only [Tree.mem_atoms_app, List.mem_map]
              constructor
              · rintro ⟨a, ha, hfact⟩
                obtain ⟨b, hb, hsort⟩ := (ih a (harg a ha)).mp hfact
                exact ⟨b, ⟨_, ⟨a, ha, rfl⟩, hb⟩, hsort⟩
              · rintro ⟨b, ⟨_, ⟨a, ha, rfl⟩, hb⟩, hsort⟩
                exact ⟨a, ha, (ih a (harg a ha)).mpr ⟨b, hb, hsort⟩⟩

/-- **The flag for errors is exact**: in a sound store it says whether the meaning of a
type contains an error, for none is linked. -/
theorem hasError_iff (h : s.Sound) (t : TypeId) :
    (s.summary t).hasError = true ↔ ∃ a ∈ (s.meaning t).atoms, a.IsError :=
  h.summary_iff_meaning Summary.Tracks.hasError (by simp [Atom.IsError]) (fun _ hc => hc.1) t

/-- The flag for parameters is exact for the same reason. -/
theorem hasParam_iff (h : s.Sound) (t : TypeId) :
    (s.summary t).hasParam = true ↔ ∃ a ∈ (s.meaning t).atoms, a.IsParam :=
  h.summary_iff_meaning Summary.Tracks.hasParam (by simp [Atom.IsParam]) (fun _ hc => hc.2) t

/-- A type is clean exactly when its meaning is proper. -/
theorem clean_iff (h : s.Sound) (t : TypeId) : s.Clean t ↔ (s.meaning t).Proper := by
  have herr := h.hasError_iff t
  have hparam := h.hasParam_iff t
  constructor
  · rintro ⟨he, hp⟩ a ha
    exact ⟨fun hbad => by simp [herr.mpr ⟨a, ha, hbad⟩] at he,
      fun hbad => by simp [hparam.mpr ⟨a, ha, hbad⟩] at hp⟩
  · intro hproper
    refine ⟨Bool.eq_false_iff.mpr fun hbad => ?_, Bool.eq_false_iff.mpr fun hbad => ?_⟩
    · obtain ⟨a, ha, hbad⟩ := herr.mp hbad
      exact (hproper a ha).1 hbad
    · obtain ⟨a, ha, hbad⟩ := hparam.mp hbad
      exact (hproper a ha).2 hbad

/-- A binding that is no link stays as it is when links are only shortened. -/
theorem shorten (h : s.Sound) (hs : Shortens s s') : s'.Sound where
  ordered := hs.ordered h.ordered
  clean {id t} hb := by
    obtain ⟨u, hu, hcase⟩ := hs.keeps.linked_cases hb
    have hclean : s.Clean t := by
      rcases hcase with rfl | rfl
      · exact h.clean hu
      · exact h.clean_root (h.clean hu)
    simpa [Clean, hs.summary_eq] using hclean
  var_sort {t id} hn name hb := by
    rw [hs.node_eq] at hn
    rcases hs.keeps.binding id (h.wellFormed.var_lt hn) with hsame | ⟨u, hold, hnew⟩
    · exact h.var_sort hn name (hsame ▸ hb)
    · rw [hnew] at hb; cases hb
  generic_sort {t id} hn := by
    rw [hs.node_eq] at hn
    obtain ⟨name, hb⟩ := h.generic_sort hn
    refine ⟨name, ?_⟩
    rw [hs.keeps.binding_of_not_linked (h.wellFormed.generic_lt hn) (by simp [hb]), hb]
  free_id {id i name} hb := by
    by_cases hid : id < s.variableCount
    · rcases hs.keeps.binding id hid with hsame | ⟨u, hold, hnew⟩
      · exact h.free_id (hsame ▸ hb)
      · rw [hnew] at hb; cases hb
    · have hnone : s'.bindings[id]? = none :=
        Array.getElem?_eq_none (Nat.le_of_not_lt fun hlt => hid (hs.count ▸ hlt))
      simp only [binding, hnone, Option.getD_none, Binding.free.injEq] at hb
      exact hb.1.symm
  item id hid := by
    rw [hs.node_eq]
    exact h.item id (hs.count ▸ hid)

/-- Linking a variable to a clean type keeps the store sound. -/
theorem link (h : s.Sound) {id : Nat} (hu : Linkable s id u) (hc : s.Clean u)
    (hg : ∀ name, s.binding id ≠ .generic name) : (s.assigned id (.linked u)).Sound where
  ordered := h.ordered.link hu
  clean {v t} hb := by
    rw [hu.binding_eq] at hb
    split at hb
    · exact Binding.linked.inj hb ▸ hc
    · exact h.clean hb
  var_sort {t v} hn name hb := by
    rw [hu.binding_eq] at hb
    split at hb
    · cases hb
    · exact h.var_sort hn name hb
  generic_sort {t v} hn := by
    obtain ⟨name, hb⟩ := h.generic_sort hn
    have hne : v ≠ id := fun heq => hg name (heq ▸ hb)
    exact ⟨name, by rw [hu.binding_eq, if_neg hne, hb]⟩
  free_id {v i name} hb := by
    rw [hu.binding_eq] at hb
    split at hb
    · cases hb
    · exact h.free_id hb
  item v hv := h.item v (assigned_count ▸ hv)

/-- A comparison that lets a variable stand for a type lets it stand for a
clean one. -/
theorem assign_sound (h : s.Sound) {a b t : TypeId} {id : Nat}
    (hcmp : Compared s a b (.assign id t)) (ha : s.Has a) (hb : s.Has b) :
    (s.assigned id (.linked t)).Sound := by
  have hlink := h.ordered.linkable_of_compared hcmp ha hb
  cases hcmp with
  | @assign _ i name _ hne herr hparam hf hocc hfree =>
      refine h.link hlink ?_ (by simp [hfree])
      rcases hf with ⟨-, rfl⟩ | ⟨-, rfl⟩
      · exact ⟨herr.2, hparam.2⟩
      · exact ⟨herr.1, hparam.1⟩

/-- **Unification keeps a store sound**, whether it succeeds or fails midway. -/
theorem solving_sound (h : s.Sound) {equations : List Equation} {r : Except Clash Unit}
    (hrun : Solving s equations r s') (he : ∀ e ∈ equations, s.Poses e) : s'.Sound := by
  induction hrun with
  | done s => exact h
  | same heq tail ih => exact ih h fun e' he' => he e' (List.mem_cons_of_mem _ he')
  | @equal s s₁ s' e rest r hne hface tail ih =>
      obtain ⟨hshort, -, -⟩ := h.ordered.facing_spec (he e List.mem_cons_self)
      rw [hface] at hshort
      exact ih (h.shorten hshort) fun e' he' =>
        (he e' (List.mem_cons_of_mem _ he')).imp hshort.has_iff.mpr hshort.has_iff.mpr
  | @clash s s₁ e rest c hne hface =>
      obtain ⟨hshort, -, -⟩ := h.ordered.facing_spec (he e List.mem_cons_self)
      rw [hface] at hshort
      exact h.shorten hshort
  | @assign s s₁ s' e rest r id t hne hface tail ih =>
      have hposed := he e List.mem_cons_self
      obtain ⟨hshort, -, hcmp⟩ := h.ordered.facing_spec hposed
      rw [hface] at hshort hcmp
      refine ih ((h.shorten hshort).assign_sound hcmp
        (hshort.has_iff.mpr (h.ordered.has_root hposed.1))
        (hshort.has_iff.mpr (h.ordered.has_root hposed.2))) fun e' he' => ?_
      exact (he e' (List.mem_cons_of_mem _ he')).imp hshort.has_iff.mpr hshort.has_iff.mpr
  | @parts s s₁ s' e rest equations r hne hface tail ih =>
      obtain ⟨hshort, h₁, hcmp⟩ := h.ordered.facing_spec (he e List.mem_cons_self)
      rw [hface] at hshort h₁ hcmp
      refine ih (h.shorten hshort) fun e' he' => ?_
      rcases List.mem_append.mp he' with he' | he'
      · exact h₁.wellFormed.poses_of_parts hcmp e' he'
      · exact (he e' (List.mem_cons_of_mem _ he')).imp hshort.has_iff.mpr hshort.has_iff.mpr

end Sound

end DotCall.TypeStore
