import DotCall.Proofs.SoundStore

/-!
# Unification finds the most general solution

An assignment solves an equation when both sides have the same value.  Each
step of unification trades the equations and links at hand for others with the
same solutions, until only links are left or a clash shows that there is no
solution at all (`Sound.solving_decides`).  So the links made are exactly what
the equations say.

This needs types in which neither an error nor a parameter is written: an error
is let pass against anything, and a parameter against itself only.
-/

namespace DotCall

namespace TypeStore

/-- Both sides of every equation have the same value. -/
def Solves (s : TypeStore) (σ : Assignment) (equations : List Equation) : Prop :=
  ∀ e ∈ equations, s.value σ e.left = s.value σ e.right

/-- What a comparison leaves to be done is fulfilled by the assignment. -/
def Fulfils (s : TypeStore) (σ : Assignment) : Comparison → Prop
  | .equal => True
  | .clash _ => False
  | .assign var target => σ var = s.value σ target
  | .parts equations => s.Solves σ equations

/-- The outcome of unification tells all about the solutions: the links after a
success allow just these, and after a failure there are none. -/
def Decides (s : TypeStore) (equations : List Equation) (r : Except Clash Unit)
    (s' : TypeStore) : Prop :=
  match r with
  | .ok () => ∀ σ, s'.Allows σ ↔ s.Allows σ ∧ s.Solves σ equations
  | .error _ => ∀ σ, ¬ (s.Allows σ ∧ s.Solves σ equations)

section Solutions

variable {s s₁ s' : TypeStore} {σ : Assignment} {e : Equation}
  {equations equations₁ rest : List Equation} {r : Except Clash Unit}

/-- To solve a list is to solve its first equation and the others. -/
theorem solves_cons :
    s.Solves σ (e :: rest) ↔ s.value σ e.left = s.value σ e.right ∧ s.Solves σ rest := by
  simp [Solves]

/-- To solve two lists in a row is to solve both. -/
theorem solves_append :
    s.Solves σ (equations ++ rest) ↔ s.Solves σ equations ∧ s.Solves σ rest := by
  simp [Solves, or_imp, forall_and]

/-- Whether equations are solved depends on the types only, not on the bindings. -/
theorem solves_congr (h : s'.entries = s.entries) :
    s'.Solves σ equations ↔ s.Solves σ equations := by
  simp [Solves, value_congr h]

/-- A step that keeps the solutions leaves the outcome as telling as it is. -/
theorem Decides.of_step (h : Decides s₁ equations₁ r s')
    (hsame : ∀ σ, s₁.Allows σ ∧ s₁.Solves σ equations₁ ↔ s.Allows σ ∧ s.Solves σ equations) :
    Decides s equations r s' := by
  cases r with
  | ok _ => exact fun σ => (h σ).trans (hsame σ)
  | error c => exact fun σ hσ => h σ ((hsame σ).mpr hσ)

/-- Types whose outermost layers differ never have the same value. -/
theorem WellFormed.value_ne_of_apart (h : s.WellFormed) {a b : TypeId}
    (hapart : Node.Apart (s.node a) (s.node b)) : s.value σ a ≠ s.value σ b := by
  cases ha : s.node a with
  | atom x =>
      cases hb : s.node b with
      | atom y =>
          rw [ha, hb] at hapart
          rw [value_of_atom ha hapart.2.1, value_of_atom hb hapart.2.2]
          exact fun heq => hapart.1 (Tree.atom.inj heq)
      | app g right =>
          rw [ha, hb] at hapart
          rw [value_of_atom ha hapart, h.value_of_app hb]
          exact Tree.noConfusion
  | app f left =>
      cases hb : s.node b with
      | atom y =>
          rw [ha, hb] at hapart
          rw [h.value_of_app ha, value_of_atom hb hapart]
          exact Tree.noConfusion
      | app g right =>
          rw [ha, hb] at hapart
          rw [h.value_of_app ha, h.value_of_app hb]
          intro heq
          obtain ⟨rfl, hargs⟩ := Tree.app.inj heq
          rcases hapart with hf | hlen
          · exact hf rfl
          · exact hlen (by simpa using congrArg List.length hargs)

/-- A variable never has the value of another type in which it occurs. -/
theorem Ordered.var_ne_of_occurs (h : s.Ordered) (hσ : s.Allows σ) {v t : TypeId} {id : Nat}
    (hv : s.node v = .atom (.var id)) (hl : s.link? v = none) (ht : s.Has t)
    (hlt : s.link? t = none) (hne : v ≠ t) (hocc : s.occurs id t = true) :
    σ id ≠ s.value σ t := by
  have hfree : ∀ u, s.binding id ≠ .linked u := fun u => link?_eq_none.mp hl id u hv
  rw [h.occurs_iff hfree] at hocc
  have hroot := root_of_no_link hlt
  rw [← h.subst_meaning hσ t]
  cases hn : s.node t with
  | atom a =>
      rw [meaning_of_atom (by rw [hroot, hn])] at hocc
      obtain rfl : Atom.var id = a := by simpa using hocc
      have hhas : s.Has v := has_of_node_ne (by simp [hv])
      exact absurd (h.wellFormed.node_injective hhas ht (hv.trans hn.symm)) hne
  | app f args =>
      rw [h.meaning_of_app (by rw [hroot, hn])] at hocc ⊢
      exact Tree.subst_ne_of_occurs hocc

end Solutions

namespace Sound

variable {s s₁ s' : TypeStore} {σ : Assignment} {e : Equation} {equations : List Equation}
  {r : Except Clash Unit}

/-- **One comparison.**  Two clean types without a link at the top have the same
value exactly when what their comparison leaves to be done is fulfilled. -/
theorem compared_iff (h : s.Sound) (hσ : s.Allows σ) {a b : TypeId} {c : Comparison}
    (hcmp : Compared s a b c) (ha : s.Has a) (hb : s.Has b) (hca : s.Clean a) (hcb : s.Clean b)
    (hla : s.link? a = none) (hlb : s.link? b = none) :
    s.value σ a = s.value σ b ↔ s.Fulfils σ c := by
  cases hcmp with
  | same heq => simp [Fulfils, heq]
  | error hne herr => simp [hca.1, hcb.1] at herr
  | param hne herr hparam => simp [hca.2, hcb.2] at hparam
  | infinite hne hf hocc =>
      simp only [Fulfils, iff_false]
      rcases hf with ⟨hn, rfl⟩ | ⟨hn, rfl⟩
      · rw [value_of_var hn]
        exact h.ordered.var_ne_of_occurs hσ hn hla hb hlb hne hocc
      · rw [value_of_var hn]
        exact (h.ordered.var_ne_of_occurs hσ hn hlb ha hla (Ne.symm hne) hocc).symm
  | rigid hne hf hbind =>
      rcases hf with ⟨hn, -⟩ | ⟨hn, -⟩
      · exact absurd hbind (h.var_sort hn _)
      · exact absurd hbind (h.var_sort hn _)
  | apart hapart => simpa [Fulfils] using h.wellFormed.value_ne_of_apart hapart
  | assign hne herr hparam hf hocc hfree =>
      rcases hf with ⟨hn, rfl⟩ | ⟨hn, rfl⟩
      · rw [value_of_var hn]; rfl
      · rw [value_of_var hn]; exact eq_comm
  | parts hne herr hparam hna hnb hlen =>
      rw [h.wellFormed.value_of_app hna, h.wellFormed.value_of_app hnb, Fulfils, Solves,
        forall_argEquations hlen]
      simp

/-- Looking at the outermost layers of an equation keeps what is allowed and
says when it is solved. -/
theorem facing_iff (h : s.Sound) (he : s.Poses e) (hl : s.Clean e.left)
    (hr : s.Clean e.right) (σ : Assignment) :
    ((s.facing e).2.Allows σ ↔ s.Allows σ) ∧
      (s.Allows σ →
        (s.value σ e.left = s.value σ e.right ↔ (s.facing e).2.Fulfils σ (s.facing e).1)) := by
  obtain ⟨hshort, h₁, hcmp⟩ := h.ordered.facing_spec he
  have hallows := h.ordered.allows_iff_of_keeps (σ := σ) h₁ hshort.keeps
  refine ⟨hallows, fun hσ => ?_⟩
  have hvalue : (s.facing e).2.value σ = s.value σ := value_congr hshort.entries
  have hclean : ∀ {t}, s.Clean t → (s.facing e).2.Clean (s.root t) := fun hc => by
    simpa [Clean, hshort.summary_eq] using h.clean_root hc
  have hlink : ∀ {t}, s.Has t → (s.facing e).2.link? (s.root t) = none := fun {t} ht =>
    hshort.keeps.link?_none (h.ordered.has_root ht) (h.ordered.link?_root t)
  rw [← h.ordered.value_root hσ e.left, ← h.ordered.value_root hσ e.right, ← hvalue]
  exact (h.shorten hshort).compared_iff (hallows.mpr hσ) hcmp
    (hshort.has_iff.mpr (h.ordered.has_root he.1)) (hshort.has_iff.mpr (h.ordered.has_root he.2))
    (hclean hl) (hclean hr) (hlink he.1) (hlink he.2)

/-- **Unification is sound and complete.**  The outcome of a run on clean types
tells all about the solutions of its equations. -/
theorem solving_decides (h : s.Sound) (hrun : Solving s equations r s')
    (he : ∀ e ∈ equations, s.Poses e)
    (hc : ∀ e ∈ equations, s.Clean e.left ∧ s.Clean e.right) : Decides s equations r s' := by
  -- induction on the run: each step keeps the solutions of links and equations together
  induction hrun with
  | done s => exact fun σ => by simp [Solves]
  | @same s s' e rest r heq tail ih =>
      refine (ih h (fun e' he' => he e' (List.mem_cons_of_mem _ he'))
        fun e' he' => hc e' (List.mem_cons_of_mem _ he')).of_step fun σ => ?_
      simp [solves_cons, heq]
  | @equal s s₁ s' e rest r hne hface tail ih =>
      have hposed := he e List.mem_cons_self
      have hclean := hc e List.mem_cons_self
      obtain ⟨hshort, -, -⟩ := h.ordered.facing_spec hposed
      have hiff := h.facing_iff hposed hclean.1 hclean.2
      rw [hface] at hshort hiff
      refine (ih (h.shorten hshort) ?_ ?_).of_step fun σ => ?_
      · exact fun e' he' => (he e' (List.mem_cons_of_mem _ he')).imp
          hshort.has_iff.mpr hshort.has_iff.mpr
      · intro e' he'
        simpa [Clean, hshort.summary_eq] using hc e' (List.mem_cons_of_mem _ he')
      · rw [solves_cons, solves_congr hshort.entries, (hiff σ).1]
        have hvalue := (hiff σ).2
        simp only [Fulfils, iff_true] at hvalue
        grind
  | @clash s s₁ e rest c hne hface =>
      have hclean := hc e List.mem_cons_self
      have hiff := h.facing_iff (he e List.mem_cons_self) hclean.1 hclean.2
      rw [hface] at hiff
      rintro σ ⟨hσ, hsolves⟩
      exact ((hiff σ).2 hσ).mp (solves_cons.mp hsolves).1
  | @assign s s₁ s' e rest r id t hne hface tail ih =>
      have hposed := he e List.mem_cons_self
      have hclean := hc e List.mem_cons_self
      obtain ⟨hshort, h₁, hcmp⟩ := h.ordered.facing_spec hposed
      have hiff := h.facing_iff hposed hclean.1 hclean.2
      rw [hface] at hshort h₁ hcmp hiff
      have hl := hshort.has_iff.mpr (h.ordered.has_root hposed.1)
      have hr := hshort.has_iff.mpr (h.ordered.has_root hposed.2)
      refine (ih ((h.shorten hshort).assign_sound hcmp hl hr) ?_ ?_).of_step fun σ => ?_
      · exact fun e' he' => (he e' (List.mem_cons_of_mem _ he')).imp
          hshort.has_iff.mpr hshort.has_iff.mpr
      · intro e' he'
        have hsum : (s₁.assigned id (.linked t)).summary = s.summary := hshort.summary_eq
        simpa [Clean, hsum] using hc e' (List.mem_cons_of_mem _ he')
      · have hrest : (s₁.assigned id (.linked t)).Solves σ rest ↔ s.Solves σ rest :=
          solves_congr hshort.entries
        rw [solves_cons, hrest, (h₁.linkable_of_compared hcmp hl hr).allows_iff, (hiff σ).1]
        have hvalue := (hiff σ).2
        simp only [Fulfils] at hvalue
        grind
  | @parts s s₁ s' e rest equations r hne hface tail ih =>
      have hposed := he e List.mem_cons_self
      have hclean := hc e List.mem_cons_self
      obtain ⟨hshort, h₁, hcmp⟩ := h.ordered.facing_spec hposed
      have hiff := h.facing_iff hposed hclean.1 hclean.2
      rw [hface] at hshort h₁ hcmp hiff
      refine (ih (h.shorten hshort) ?_ ?_).of_step fun σ => ?_
      · intro e' he'
        rcases List.mem_append.mp he' with he' | he'
        · exact h₁.wellFormed.poses_of_parts hcmp e' he'
        · exact (he e' (List.mem_cons_of_mem _ he')).imp hshort.has_iff.mpr hshort.has_iff.mpr
      · intro e' he'
        rcases List.mem_append.mp he' with he' | he'
        · exact h₁.wellFormed.clean_parts hcmp e' he'
        · simpa [Clean, hshort.summary_eq] using hc e' (List.mem_cons_of_mem _ he')
      · have hrest : s₁.Solves σ rest ↔ s.Solves σ rest := solves_congr hshort.entries
        rw [solves_append, solves_cons, hrest, (hiff σ).1]
        have hvalue := (hiff σ).2
        simp only [Fulfils] at hvalue
        grind

section Unify

variable {a b : TypeId} (h : s.Sound) (ha : s.Has a) (hb : s.Has b) (hca : s.Clean a)
  (hcb : s.Clean b)

include h ha hb hca hcb

/-- A run over one equation decides it. -/
theorem unify_decides :
    Decides s [⟨a, b, .whole⟩] ((unify a b).run s).1 ((unify a b).run s).2 :=
  h.solving_decides (h.ordered.unify_solving ha hb) (by simpa using ⟨ha, hb⟩)
    (by simpa using ⟨hca, hcb⟩)

/-- After a success just those assignments are allowed that make both types
equal. -/
theorem allows_of_unify_ok (hok : ((unify a b).run s).1 = .ok ()) (σ : Assignment) :
    ((unify a b).run s).2.Allows σ ↔ s.Allows σ ∧ s.value σ a = s.value σ b := by
  have hdecides := h.unify_decides ha hb hca hcb
  rw [hok] at hdecides
  simpa [Solves] using hdecides σ

/-- Two types unify exactly when some assignment makes their meanings equal. -/
theorem unify_ok_iff :
    ((unify a b).run s).1 = .ok () ↔
      ∃ σ : Assignment, (s.meaning a).subst σ = (s.meaning b).subst σ := by
  have hrun := h.ordered.unify_solving ha hb
  have hposed : ∀ e ∈ [Equation.mk a b .whole], s.Poses e := by simpa using ⟨ha, hb⟩
  constructor
  · intro hok
    have h' := (h.solving_sound hrun hposed).ordered
    obtain ⟨hσ, hsolves⟩ := (h.allows_of_unify_ok ha hb hca hcb hok _).mp
      (h'.allows_completed fun id => .atom (.var id))
    exact ⟨_, by rw [h.ordered.subst_meaning hσ, h.ordered.subst_meaning hσ, hsolves]⟩
  · rintro ⟨σ, hσ⟩
    have hdecides := h.unify_decides ha hb hca hcb
    cases hr : ((unify a b).run s).1 with
    | ok _ => rfl
    | error c =>
        rw [hr] at hdecides
        refine absurd ⟨h.ordered.allows_completed σ, ?_⟩ (hdecides (s.completed σ))
        simp only [Solves, List.mem_singleton, forall_eq, h.ordered.value_completed, hσ]

end Unify

end Sound

end TypeStore

end DotCall
