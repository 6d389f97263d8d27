import DotCall.Proofs.LinkChange

/-!
# Links as equations

A link says that a variable equals a type.  An assignment is allowed by a store
when it solves all these equations.  Under an allowed assignment a type has the
same value as its root and as its meaning, so links do not matter any more.

A store without circles allows many assignments: any choice for the variables
that are not linked can be completed (`value_completed`).
-/

namespace DotCall.TypeStore

/-- The tree that a type stands for under an assignment. -/
def value (s : TypeStore) (σ : Assignment) (t : TypeId) : Tree := (s.written t).subst σ

/-- Every linked variable is assigned the value of what it is linked to. -/
def Allows (s : TypeStore) (σ : Assignment) : Prop :=
  ∀ id t, s.binding id = .linked t → σ id = s.value σ t

/-- The assignment in which the linked variables get what the others force on
them. -/
def completed (s : TypeStore) (σ : Assignment) : Assignment := fun id =>
  match s.binding id with
  | .linked t => (s.meaning t).subst σ
  | _ => σ id

section Values

variable {s s' : TypeStore} {σ : Assignment} {t u : TypeId} {id : Nat}

/-- A variable has the value that the assignment gives it. -/
theorem value_of_var (hn : s.node t = .atom (.var id)) : s.value σ t = σ id := by
  simp [value, WellFormed.written_of_atom hn]

theorem value_of_atom {a : Atom} (hn : s.node t = .atom a) (ha : ∀ id, a ≠ .var id) :
    s.value σ t = .atom a := by
  rw [value, WellFormed.written_of_atom hn, Tree.subst_atom ha]

/-- The value of a compound type is its former around the values of its arguments. -/
theorem WellFormed.value_of_app (h : s.WellFormed) {f : Former} {args : List TypeId}
    (hn : s.node t = .app f args) : s.value σ t = .app f (args.map (s.value σ)) := by
  simp [value, h.written_of_app hn, Function.comp_def]

/-- Values do not depend on bindings. -/
theorem value_congr (h : s'.entries = s.entries) : s'.value σ = s.value σ := by
  funext t
  simp only [value, written_congr h]

/-- A type has the same value in a store that has grown. -/
theorem WellFormed.value_grows (h : s.WellFormed) (h' : s'.WellFormed) (hg : Grows s s')
    (ht : s.Has t) : s'.value σ t = s.value σ t := by
  simp only [value, h.written_grows h' hg ht]

/-- Completing an assignment leaves the variables that are not linked as they are. -/
theorem completed_of_not_linked (h : ∀ u, s.binding id ≠ .linked u) : s.completed σ id = σ id := by
  unfold completed
  split
  · next u hb => exact absurd hb (h u)
  · rfl

/-- A linked variable is given what it is linked to, read under the assignment. -/
theorem completed_of_linked (h : s.binding id = .linked u) :
    s.completed σ id = (s.meaning u).subst σ := by
  simp [completed, h]

end Values

namespace Ordered

variable {s : TypeStore} {σ : Assignment} {t u : TypeId} {id : Nat}

/-- Following links does not change the value. -/
theorem value_root (h : s.Ordered) (hσ : s.Allows σ) (t : TypeId) :
    s.value σ (s.root t) = s.value σ t := by
  induction t using h.link_induction with
  | here t hl => rw [root_of_no_link hl]
  | link t id u hl ih =>
      obtain ⟨hn, hb⟩ := link?_eq_some.mp hl
      rw [h.root_of_link hl, ih, value_of_var hn, hσ id u hb]

/-- Shortening links does not change what is allowed. -/
theorem allows_iff_of_keeps {s' : TypeStore} (h : s.Ordered) (h' : s'.Ordered)
    (hk : Keeps s s') : s'.Allows σ ↔ s.Allows σ := by
  have hvalue : ∀ {t}, s.Has t → s'.value σ t = s.value σ t := fun ht =>
    h.wellFormed.value_grows h'.wellFormed hk.grows ht
  constructor
  · intro hσ id t hb
    have ht : s.Has t := h.wellFormed.linked_has hb
    rcases hk.binding id (lt_of_binding hb (by simp)) with hsame | ⟨u, hold, hnew⟩
    · rw [hσ id t (hsame.trans hb), hvalue ht]
    · obtain rfl : t = u := Binding.linked.inj (hb.symm.trans hold)
      rw [hσ id _ hnew, ← hk.root_eq h h' ht, h'.value_root hσ, hvalue ht]
  · intro hσ id u hb
    obtain ⟨t, ht, rfl | rfl⟩ := hk.linked_cases hb
    · rw [hvalue (h.wellFormed.linked_has ht), hσ id u ht]
    · rw [hvalue (h.has_root (h.wellFormed.linked_has ht)), h.value_root hσ, hσ id t ht]

/-- Under an allowed assignment a type and its meaning have the same value. -/
theorem subst_meaning (h : s.Ordered) (hσ : s.Allows σ) (t : TypeId) :
    (s.meaning t).subst σ = s.value σ t := by
  induction t using h.root_induction with
  | step t ih =>
      rw [← h.value_root hσ t]
      cases hn : s.node (s.root t) with
      | atom a => rw [meaning_of_atom hn, value, WellFormed.written_of_atom hn]
      | app f args =>
          rw [h.meaning_of_app hn, h.wellFormed.value_of_app hn, Tree.subst_app, List.map_map]
          simp only [Tree.app.injEq, true_and]
          exact List.map_congr_left fun a ha => ih a (by simpa [hn, Node.args] using ha)

/-- **Completion.**  The completed assignment gives a type what the original one
makes of its meaning. -/
theorem value_completed (h : s.Ordered) (σ : Assignment) (t : TypeId) :
    s.value (s.completed σ) t = (s.meaning t).subst σ := by
  induction t using h.acyclic.induction with
  | _ t ih =>
      cases hl : s.link? t with
      | some p =>
          obtain ⟨hn, hb⟩ := link?_eq_some.mp hl
          rw [h.meaning_of_link hl, value_of_var hn, completed_of_linked hb]
      | none =>
          have hroot := root_of_no_link hl
          cases hn : s.node t with
          | app f args =>
              rw [h.wellFormed.value_of_app hn, h.meaning_of_app (by rwa [hroot]),
                Tree.subst_app, List.map_map]
              simp only [Tree.app.injEq, true_and]
              refine List.map_congr_left fun a ha => ih a (.inl ?_)
              simpa [hn, Node.args] using ha
          | atom a =>
              rw [meaning_of_atom (by rwa [hroot]), value, WellFormed.written_of_atom hn]
              cases a with
              | var id =>
                  rw [Tree.subst_var, Tree.subst_var, completed_of_not_linked]
                  exact fun u => link?_eq_none.mp hl id u hn
              | _ => rfl

/-- Every assignment of the variables that are not linked can be completed. -/
theorem allows_completed (h : s.Ordered) (σ : Assignment) : s.Allows (s.completed σ) := by
  intro id t hb
  rw [h.value_completed, completed_of_linked hb]

/-- The meaning of a type is what it is written as, with the linked variables
replaced. -/
theorem meaning_eq_value (h : s.Ordered) (t : TypeId) :
    s.meaning t = s.value (s.completed fun id => .atom (.var id)) t := by
  rw [h.value_completed, Tree.subst_self]

/-- A type in which no linked variable is written means what is written. -/
theorem meaning_eq_written (h : s.Ordered)
    (hl : ∀ id, .var id ∈ (s.written t).atoms → ∀ u, s.binding id ≠ .linked u) :
    s.meaning t = s.written t := by
  rw [h.meaning_eq_value, value,
    Tree.subst_congr fun id hid => completed_of_not_linked (hl id hid), Tree.subst_self]

/-- Two types have the same meaning when all allowed assignments give them the
same value. -/
theorem meaning_eq_of_value_eq (h : s.Ordered)
    (heq : ∀ σ, s.Allows σ → s.value σ t = s.value σ u) : s.meaning t = s.meaning u := by
  rw [h.meaning_eq_value, h.meaning_eq_value]
  exact heq _ (h.allows_completed _)

end Ordered

/-- More links allow less. -/
theorem Extends.allows {s s' : TypeStore} {σ : Assignment} (h : Extends s s') (hs : s.Ordered)
    (hs' : s'.Ordered) (hσ : s'.Allows σ) : s.Allows σ := by
  intro id t hb
  obtain ⟨t', hb', hroot⟩ := h.linked hb
  calc σ id = s'.value σ t' := hσ id t' hb'
    _ = s'.value σ t := by rw [← hs'.value_root hσ t', hroot, hs'.value_root hσ]
    _ = s.value σ t :=
        hs.wellFormed.value_grows hs'.wellFormed h.grows (hs.wellFormed.linked_has hb)

/-- A link adds one equation. -/
theorem Linkable.allows_iff {s : TypeStore} {σ : Assignment} {u : TypeId} {id : Nat}
    (hu : Linkable s id u) :
    (s.assigned id (.linked u)).Allows σ ↔ s.Allows σ ∧ σ id = s.value σ u := by
  have hvalue : (s.assigned id (.linked u)).value σ = s.value σ := value_congr rfl
  constructor
  · intro hσ
    refine ⟨fun v t hb => ?_, ?_⟩
    · have hne : v ≠ id := fun heq => hu.free t (heq ▸ hb)
      rw [hσ v t (by rw [hu.binding_eq, if_neg hne, hb]), hvalue]
    · rw [hσ id u (by rw [hu.binding_eq, if_pos rfl]), hvalue]
  · rintro ⟨hσ, hid⟩ v t hb
    rw [hvalue]
    rw [hu.binding_eq] at hb
    split at hb
    · next heq => rw [heq, ← Binding.linked.inj hb, hid]
    · exact hσ v t hb

end DotCall.TypeStore
