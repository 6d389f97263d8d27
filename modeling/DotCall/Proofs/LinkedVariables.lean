import DotCall.Proofs.ReachedStores

/-!
# Linked variables in reached stores

What holds of the variables of every store that a program can reach.  The way
down through links and arguments comes to an end, and the type of a variable
lies on it wherever the variable is written; so no variable is linked, through
however many others, to a type that mentions it.  A link leads to a clean type,
and cleanness is kept on the way down, so what lies below a link is clean as
far as one can go.
-/

namespace DotCall.TypeStore

open Relation

/-- The variable `v` is linked to a type in which the variable `w` is written. -/
def Mentions (s : TypeStore) (v w : Nat) : Prop :=
  ∃ t, s.binding v = .linked t ∧ .var w ∈ (s.written t).atoms

section Mentions

variable {s : TypeStore} {t u : TypeId} {v w : Nat}

/-- Below a type in which a variable is written lies the type of the variable. -/
theorem WellFormed.descends_of_written (h : s.WellFormed) (hw : .var w ∈ (s.written t).atoms) :
    ∃ u, s.node u = .atom (.var w) ∧ ReflTransGen s.Descends u t := by
  induction t using h.handle_induction with
  | step t ih =>
      cases hn : s.node t with
      | atom a =>
          rw [written_of_atom hn] at hw
          obtain rfl : Atom.var w = a := by simpa using hw
          exact ⟨t, hn, .refl⟩
      | app f args =>
          rw [h.written_of_app hn] at hw
          obtain ⟨_, hmem, hw⟩ := Tree.mem_atoms_app.mp hw
          obtain ⟨a, ha, rfl⟩ := List.mem_map.mp hmem
          have harg : a ∈ (s.node t).args := by simpa [hn, Node.args] using ha
          obtain ⟨u, hu, hdown⟩ := ih a harg hw
          exact ⟨u, hu, hdown.tail (.inl harg)⟩

/-- A chain of variables that mention each other is a way down between their types. -/
theorem WellFormed.descends_of_mentions (h : s.WellFormed) (ht : s.node t = .atom (.var v))
    (hchain : TransGen s.Mentions v w) :
    ∃ u, s.node u = .atom (.var w) ∧ TransGen s.Descends u t := by
  -- one link: down along it, and on to where the variable is written
  have hstep : ∀ {t v w}, s.node t = .atom (.var v) → s.Mentions v w →
      ∃ u, s.node u = .atom (.var w) ∧ TransGen s.Descends u t := by
    rintro t v w ht ⟨target, hb, hw⟩
    obtain ⟨u, hu, hdown⟩ := h.descends_of_written hw
    exact ⟨u, hu, .tail' hdown (.inr ⟨v, link?_eq_some.mpr ⟨ht, hb⟩⟩)⟩
  induction hchain with
  | single hm => exact hstep ht hm
  | tail _ hm ih =>
      obtain ⟨u, hu, hdown⟩ := ih
      obtain ⟨u', hu', hdown'⟩ := hstep hu hm
      exact ⟨u', hu', hdown'.trans hdown⟩

namespace Sound

/-- Only a variable that has a type is linked. -/
theorem node_of_linked (h : s.Sound) (hb : s.binding v = .linked u) :
    ∃ t, s.node t = .atom (.var v) := by
  rcases h.item v (lt_of_binding hb (by simp)) with ht | ⟨t, ht⟩
  · exact ht
  · obtain ⟨name, hgeneric⟩ := h.generic_sort ht
    rw [hgeneric] at hb
    cases hb

/-- No variable mentions itself through links. -/
theorem not_mentions_self (h : s.Sound) (v : Nat) : ¬ TransGen s.Mentions v v := by
  intro hcycle
  obtain ⟨w, ⟨u, hb, -⟩, -⟩ := TransGen.head'_iff.mp hcycle
  obtain ⟨t, ht⟩ := h.node_of_linked hb
  obtain ⟨t', ht', hdown⟩ := h.wellFormed.descends_of_mentions ht hcycle
  have hhas : ∀ {x}, s.node x = .atom (.var v) → s.Has x := fun hx =>
    has_of_node_ne (by simp [hx])
  obtain rfl := h.wellFormed.node_injective (hhas ht) (hhas ht') (ht.trans ht'.symm)
  exact h.ordered.acyclic.transGen.asymmetric t t hdown hdown

/-- Whatever a clean type leads to is clean: no link leads to an error or a parameter. -/
theorem clean_of_descends (h : s.Sound) (hc : s.Clean t) (hdown : ReflTransGen s.Descends u t) :
    s.Clean u := by
  induction hdown using ReflTransGen.head_induction_on with
  | refl => exact hc
  | @head a c hstep _ ih =>
      rcases hstep with ha | ⟨id, hl⟩
      · cases hn : s.node c with
        | atom x => simp [hn, Node.args] at ha
        | app f args => exact h.wellFormed.clean_arg hn ih a (by simpa [hn, Node.args] using ha)
      · exact h.clean_of_link hl

end Sound

/-- An atom that is clean is neither an error nor a parameter. -/
theorem WellFormed.proper_of_clean (h : s.WellFormed) {a : Atom} (hc : s.Clean t)
    (hn : s.node t = .atom a) : ¬ a.IsError ∧ ¬ a.IsParam := by
  have hsummary : s.summary t = a.summary := by rw [h.summary_node, hn]; rfl
  rw [Clean, hsummary] at hc
  exact ⟨fun hbad => by simp [(Summary.Tracks.hasError.atom a).mpr hbad] at hc,
    fun hbad => by simp [(Summary.Tracks.hasParam.atom a).mpr hbad] at hc⟩

end Mentions

/-- **The variables of a reached store.**  No variable is linked, directly or
through others, to a type in which it occurs; nothing below a link is an error or
a parameter; the variable of every type for one is free under its own number or
linked, and that of every generic parameter is generic. -/
theorem Reached.variable_invariant {checkpoints : List Checkpoint} {s : TypeStore}
    (h : Reached checkpoints s) :
    (∀ v, ¬ TransGen s.Mentions v v) ∧
    (∀ id t u a, s.binding id = .linked t → ReflTransGen s.Descends u t → s.node u = .atom a →
      ¬ a.IsError ∧ ¬ a.IsParam) ∧
    (∀ t id, s.node t = .atom (.var id) → id < s.variableCount ∧
      ((∃ name, s.binding id = .free id name) ∨ ∃ u, s.binding id = .linked u)) ∧
    ∀ t id, s.node t = .atom (.generic id) → id < s.variableCount ∧
      ∃ name, s.binding id = .generic name := by
  have hs := h.sound
  refine ⟨hs.not_mentions_self, ?_, ?_, ?_⟩
  · intro id t u a hb hdown hn
    exact hs.wellFormed.proper_of_clean (hs.clean_of_descends (hs.clean hb) hdown) hn
  · intro t id hn
    refine ⟨hs.wellFormed.var_lt hn, ?_⟩
    cases hb : s.binding id with
    | free i name => exact .inl ⟨name, by rw [hs.free_id hb]⟩
    | linked u => exact .inr ⟨u, rfl⟩
    | generic name => exact absurd hb (hs.var_sort hn name)
  · exact fun t id hn => ⟨hs.wellFormed.generic_lt hn, hs.generic_sort hn⟩

/-- A new variable that was unified with a primitive type does not mention itself. -/
theorem variable_invariant_newVar :
    let made := newVar.run new
    let s := ((unify made.1 (.ofPrimitive .i32)).run made.2).2
    ∀ v, ¬ TransGen s.Mentions v v := by
  obtain ⟨hq, hadd⟩ := new_sound.ordered.newVar_run
  have hmade : Reached [] (newVar.run new).2 := Reached.act .var .new (by simp [Action.types])
  have hhas : ∀ t ∈ (Action.unify (newVar.run new).1 (.ofPrimitive .i32)).types,
      (newVar.run new).2.Has t := by
    simpa [Action.types] using ⟨hadd.has, hq.has (t := .ofPrimitive .i32) (by decide)⟩
  exact (hmade.act (.unify (newVar.run new).1 (.ofPrimitive .i32)) hhas).variable_invariant.1

end DotCall.TypeStore
