import DotCall.Proofs.TwinStores

/-!
# Unification on twins

On twin stores unification takes the same course: the comparison of two layers
comes to the same result, the same variables are linked to types that are
written alike, and it fails on one side exactly when it fails on the other.
-/

namespace DotCall.TypeStore

namespace Twin

variable {w : Twin} {a b a' b' t u : TypeId}

/-- Equations between types that are written alike. -/
structure PairsEquation (w : Twin) (e e' : Equation) : Prop where
  left : w.Pairs e.left e'.left
  right : w.Pairs e.right e'.right

/-- Comparisons that leave the same to be done. -/
inductive PairsComparison (w : Twin) : Comparison → Comparison → Prop where
  | equal : PairsComparison w .equal .equal
  | clash {c c' : Clash} : PairsComparison w (.clash c) (.clash c')
  | assign {id : Nat} {t u : TypeId} (hid : w.pairing.known id) (h : w.Pairs t u) :
      PairsComparison w (.assign id t) (.assign (w.pairing.rename id) u)
  | parts {es es' : List Equation} (h : List.Forall₂ w.PairsEquation es es') :
      PairsComparison w (.parts es) (.parts es')

/-- Paired arguments give paired equations. -/
theorem pairs_argEquations {f : Former} {left right left' right' : List TypeId}
    (hl : List.Forall₂ w.Pairs left left') (hr : List.Forall₂ w.Pairs right right') :
    List.Forall₂ w.PairsEquation (argEquations f left right) (argEquations f left' right') := by
  have hzip : ∀ k, List.Forall₂ w.PairsEquation
      (((left.zip right).zipIdx k).map fun e => ⟨e.1.1, e.1.2, f.argPosition e.2⟩)
      (((left'.zip right').zipIdx k).map fun e => ⟨e.1.1, e.1.2, f.argPosition e.2⟩) := by
    induction hl generalizing right right' with
    | nil => exact fun k => .nil
    | cons hp _ ih =>
        cases hr with
        | nil => exact fun k => .nil
        | cons hq hr =>
            intro k
            simp only [List.zip_cons_cons, List.zipIdx_cons, List.map_cons]
            exact .cons ⟨hp, hq⟩ (ih hr (k + 1))
  exact hzip 0

/-- A variable and a type compare as the paired ones do: the occurs check finds the same,
and the bindings are paired. -/
theorem compareVar_alike {id : Nat} {position position' : Position}
    (hid : w.pairing.known id) (hfree : ∀ v, w.left.binding id ≠ .linked v) (h : w.Pairs t u) :
    w.PairsComparison (w.left.compareVar id t position)
      (w.right.compareVar (w.pairing.rename id) u position') := by
  have hbinding := w.binding hid
  have hfree' : ∀ v, w.right.binding (w.pairing.rename id) ≠ .linked v := by
    intro v hv
    rw [hv] at hbinding
    generalize hb : w.left.binding id = c at hbinding
    cases hbinding with
    | linked _ => exact hfree _ hb
  unfold compareVar
  rw [h.occurs_eq hid hfree hfree']
  split
  · exact .clash
  · generalize hb : w.left.binding id = c at hbinding hfree
    generalize hb' : w.right.binding (w.pairing.rename id) = c' at hbinding hfree'
    cases hbinding with
    | free => exact .assign hid h
    | generic => exact .clash
    | linked _ => exact absurd rfl (hfree _)

/-- So do two types that are no variables: the former and the number of arguments are the
same. -/
theorem compareLayers_alike {position position' : Position}
    (hna : w.PairsNode (w.left.node a) (w.right.node a'))
    (hnb : w.PairsNode (w.left.node b) (w.right.node b'))
    (hva : ∀ id, w.left.node a ≠ .atom (.var id)) (hvb : ∀ id, w.left.node b ≠ .atom (.var id)) :
    w.PairsComparison (w.left.compareLayers a b position)
      (w.right.compareLayers a' b' position') := by
  unfold compareLayers
  generalize w.left.node a = na at hna hva
  generalize w.left.node b = nb at hnb hvb
  generalize w.right.node a' = na' at hna
  generalize w.right.node b' = nb' at hnb
  cases hna with
  | var _ => exact absurd rfl (hva _)
  | atom _ =>
      cases hnb with
      | var _ => exact absurd rfl (hvb _)
      | app _ => exact .clash
      | atom _ =>
          dsimp only
          split
          · exact .equal
          · exact .clash
  | @app f left left' hl =>
      cases hnb with
      | var _ => exact absurd rfl (hvb _)
      | atom _ => exact .clash
      | @app g right right' hr =>
          dsimp only
          rw [← hl.length_eq, ← hr.length_eq]
          split
          · split
            · exact .parts (pairs_argEquations hl hr)
            · exact .clash
          · split
            · exact .clash
            · exact .clash

/-- Comparing types that are written alike comes to the same result. -/
theorem compare_alike {position position' : Position} (ha : w.Pairs a a') (hb : w.Pairs b b')
    (hla : w.left.link? a = none) (hlb : w.left.link? b = none) :
    w.PairsComparison (w.left.compare a b position) (w.right.compare a' b' position') := by
  by_cases hne : a = b
  · have hne' := (ha.eq_iff hb).mp hne
    simp only [compare, hne, hne', if_true]
    exact .equal
  have hne' : ¬ a' = b' := fun heq => hne ((ha.eq_iff hb).mpr heq)
  unfold compare
  rw [if_neg hne, if_neg hne', ha.hasError_eq, hb.hasError_eq, ha.hasParam_eq, hb.hasParam_eq]
  split
  · exact .equal
  split
  · exact .clash
  split
  · exact .clash
  have hna := ha.node
  have hnb := hb.node
  have hfree : ∀ {t id}, w.left.link? t = none → w.left.node t = .atom (.var id) →
      ∀ v, w.left.binding id ≠ .linked v := fun hl hn v => link?_eq_none.mp hl _ v hn
  have hlayers : _ → _ → w.PairsComparison (w.left.compareLayers a b position)
    (w.right.compareLayers a' b' position') := compareLayers_alike hna hnb
  generalize hxa : w.left.node a = na at hna hlayers
  generalize hxb : w.left.node b = nb at hnb hlayers
  generalize hya : w.right.node a' = na' at hna
  generalize hyb : w.right.node b' = nb' at hnb
  cases hna with
  | var hid => exact compareVar_alike hid (hfree hla hxa) hb
  | @atom x hx =>
      cases hnb with
      | var hid =>
          cases x with
          | var id => exact absurd rfl (hx id)
          | _ => exact compareVar_alike hid (hfree hlb hxb) ha
      | @atom y hy =>
          have hsame := hlayers (by simpa using hx) (by simpa using hy)
          cases x with
          | var id => exact absurd rfl (hx id)
          | generic i =>
              cases y with
              | var id => exact absurd rfl (hy id)
              | _ => exact .clash
          | _ =>
              cases y with
              | var id => exact absurd rfl (hy id)
              | generic j => exact .clash
              | _ => exact hsame
      | app _ =>
          have hsame := hlayers (by simpa using hx) (by simp)
          cases x with
          | var id => exact absurd rfl (hx id)
          | generic i => exact .clash
          | _ => exact hsame
  | app hargs =>
      cases hnb with
      | var hid => exact compareVar_alike hid (hfree hlb hxb) ha
      | @atom y hy =>
          have hsame := hlayers (by simp) (by simpa using hy)
          cases y with
          | var id => exact absurd rfl (hy id)
          | generic j => exact .clash
          | _ => exact hsame
      | app _ => exact hlayers (by simp) (by simp)

/-- Looking at the outermost layers of paired equations. -/
theorem facing_alike {e e' : Equation} (he : w.PairsEquation e e') :
    ∃ v, w.Leads v ∧ v.left = (w.left.facing e).2 ∧ v.right = (w.right.facing e').2 ∧
      v.PairsComparison (w.left.facing e).1 (w.right.facing e').1 := by
  obtain ⟨hroot₁, hq₁⟩ := w.leftOrdered.findRoot_quiet e.left
  obtain ⟨hroot₂, hq₂⟩ := hq₁.finish.findRoot_quiet e.right
  obtain ⟨hroot₁', hq₁'⟩ := w.rightOrdered.findRoot_quiet e'.left
  obtain ⟨hroot₂', hq₂'⟩ := hq₁'.finish.findRoot_quiet e'.right
  rw [hq₁.root_eq he.right.left] at hroot₂
  rw [hq₁'.root_eq he.right.right] at hroot₂'
  have hleads := w.leads_quiet (hq₁.trans hq₂) (hq₁'.trans hq₂')
  refine ⟨w.quiet (hq₁.trans hq₂) (hq₁'.trans hq₂'), hleads, rfl, rfl, ?_⟩
  simp only [facing, hroot₁, hroot₂, hroot₁', hroot₂']
  refine compare_alike (hleads.pairs he.left.root) (hleads.pairs he.right.root) ?_ ?_
  · exact (hq₁.trans hq₂).keeps.link?_none (w.leftOrdered.has_root he.left.left)
      (w.leftOrdered.link?_root _)
  · exact (hq₁.trans hq₂).keeps.link?_none (w.leftOrdered.has_root he.right.left)
      (w.leftOrdered.link?_root _)

/-- Paired equations stay paired. -/
theorem Leads.equations {v : Twin} (h : w.Leads v) {es es' : List Equation}
    (he : List.Forall₂ w.PairsEquation es es') : List.Forall₂ v.PairsEquation es es' :=
  he.imp fun _ _ hp => ⟨h.pairs hp.left, h.pairs hp.right⟩

/-- Linking on both sides, where the comparison says so. -/
theorem assign_alike {id : Nat} {t u : TypeId} (hid : w.pairing.known id) (h : w.Pairs t u)
    (hcmp : Compared w.left a b (.assign id t))
    (hcmp' : Compared w.right a' b' (.assign (w.pairing.rename id) u))
    (ha : w.Pairs a a') (hb : w.Pairs b b') :
    ∃ v, w.Leads v ∧ v.left = w.left.assigned id (.linked t) ∧
      v.right = w.right.assigned (w.pairing.rename id) (.linked u) := by
  have hl := w.leftOrdered.linkable_of_compared hcmp ha.left hb.left
  have hr := w.rightOrdered.linkable_of_compared hcmp' ha.right hb.right
  obtain ⟨ho, hbinds⟩ := w.leftOrdered.assign_spec hcmp ha.left hb.left
  obtain ⟨ho', hbinds'⟩ := w.rightOrdered.assign_spec hcmp' ha.right hb.right
  exact ⟨w.link hid h hl hr, ⟨.of_binds hbinds w.leftOrdered ho,
    .of_binds hbinds' w.rightOrdered ho', fun hi => hi, fun _ => rfl, .inl⟩, rfl, rfl⟩

/-- **Lockstep.**  A run of unification on one side has a run on the other that
comes to the same end. -/
theorem solving_alike {x x' : TypeStore} {es es' : List Equation} {r : Except Clash Unit}
    (hrun : Solving x es r x') (w : Twin) (hx : w.left = x)
    (he : List.Forall₂ w.PairsEquation es es') :
    ∃ r' v, Solving w.right es' r' v.right ∧ w.Leads v ∧ v.left = x' ∧
      (r = .ok () ↔ r' = .ok ()) := by
  induction hrun generalizing w es' with
  | done s =>
      cases he
      exact ⟨.ok (), w, .done _, .refl w, hx, Iff.rfl⟩
  | same heq tail ih =>
      cases he with
      | cons hp he =>
          obtain ⟨r', v, hrun', hv, hl, hok⟩ := ih w hx he
          refine ⟨r', v, .same ?_ hrun', hv, hl, hok⟩
          exact (hp.left.eq_iff hp.right).mp heq
  | @equal s s₁ s' e rest r hne hface tail ih =>
      cases he with
      | @cons _ e' _ rest' hp he =>
          subst hx
          obtain ⟨v, hv, hl, hr, hcmp⟩ := facing_alike hp
          rw [hface] at hl hcmp
          generalize hface' : (w.right.facing e').1 = c at hcmp
          cases hcmp with
          | equal =>
              obtain ⟨r', v', hrun', hv', hl', hok⟩ := ih v hl (hv.equations he)
              refine ⟨r', v', .equal ?_ (Prod.ext hface' hr.symm) hrun', hv.trans hv', hl', hok⟩
              exact fun heq => hne ((hp.left.eq_iff hp.right).mpr heq)
  | @clash s s₁ e rest c hne hface =>
      cases he with
      | @cons _ e' _ rest' hp he =>
          subst hx
          obtain ⟨v, hv, hl, hr, hcmp⟩ := facing_alike hp
          rw [hface] at hl hcmp
          generalize hface' : (w.right.facing e').1 = c' at hcmp
          cases hcmp with
          | @clash _ c'' =>
              refine ⟨.error c'', v, .clash ?_ (Prod.ext hface' hr.symm), hv, hl, by simp⟩
              exact fun heq => hne ((hp.left.eq_iff hp.right).mpr heq)
  | @assign s s₁ s' e rest r id t hne hface tail ih =>
      cases he with
      | @cons _ e' _ rest' hp he =>
          subst hx
          obtain ⟨v, hv, hl, hr, hcmp⟩ := facing_alike hp
          obtain ⟨-, -, hcompared⟩ := w.leftOrdered.facing_spec ⟨hp.left.left, hp.right.left⟩
          obtain ⟨-, -, hcompared'⟩ := w.rightOrdered.facing_spec ⟨hp.left.right, hp.right.right⟩
          rw [hface] at hl hcmp hcompared
          generalize hface' : (w.right.facing e').1 = c at hcmp hcompared'
          cases hcmp with
          | @assign _ _ u hid hpair =>
              rw [← hl] at hcompared
              rw [← hr] at hcompared'
              obtain ⟨v₁, hv₁, hl₁, hr₁⟩ := assign_alike hid hpair hcompared hcompared'
                (hv.pairs hp.left.root) (hv.pairs hp.right.root)
              rw [hl] at hl₁
              obtain ⟨r', v', hrun', hv', hl', hok⟩ :=
                ih v₁ hl₁ ((hv.trans hv₁).equations he)
              rw [hr₁] at hrun'
              refine ⟨r', v', .assign ?_ (Prod.ext hface' hr.symm) hrun',
                (hv.trans hv₁).trans hv', hl', hok⟩
              exact fun heq => hne ((hp.left.eq_iff hp.right).mpr heq)
  | @parts s s₁ s' e rest equations r hne hface tail ih =>
      cases he with
      | @cons _ e' _ rest' hp he =>
          subst hx
          obtain ⟨v, hv, hl, hr, hcmp⟩ := facing_alike hp
          rw [hface] at hl hcmp
          generalize hface' : (w.right.facing e').1 = c at hcmp
          cases hcmp with
          | parts hparts =>
              obtain ⟨r', v', hrun', hv', hl', hok⟩ :=
                ih v hl (List.rel_append hparts (hv.equations he))
              refine ⟨r', v', .parts ?_ (Prod.ext hface' hr.symm) hrun', hv.trans hv', hl', hok⟩
              exact fun heq => hne ((hp.left.eq_iff hp.right).mpr heq)

/-- Unifying types that are written alike succeeds on both sides or on neither,
and leaves twins. -/
theorem unify_alike (ha : w.Pairs a a') (hb : w.Pairs b b') :
    ∃ v, w.Leads v ∧ v.left = ((unify a b).run w.left).2 ∧
      v.right = ((unify a' b').run w.right).2 ∧
      (((unify a b).run w.left).1 = .ok () ↔ ((unify a' b').run w.right).1 = .ok ()) := by
  have hrun := w.leftOrdered.unify_solving ha.left hb.left
  have hrun' := w.rightOrdered.unify_solving ha.right hb.right
  have he : List.Forall₂ w.PairsEquation [⟨a, b, .whole⟩] [⟨a', b', .whole⟩] :=
    .cons ⟨ha, hb⟩ .nil
  obtain ⟨r', v, hsolving, hv, hl, hok⟩ := solving_alike hrun w rfl he
  obtain ⟨rfl, hr⟩ := hsolving.deterministic hrun'
  exact ⟨v, hv, hl, hr, hok⟩

end Twin

end DotCall.TypeStore
