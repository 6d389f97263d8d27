import DotCall.Proofs.PatternTrees
import DotCall.Proofs.ReachedStores

/-!
# Unifying an instance of a pattern

Impls, rules and candidates are all tried in one way: variables are made for the
parameters of a pattern, the pattern is instantiated with them, and the instance
is unified with the type at hand.  Whether that succeeds is a matter of trees
(`Instantiates.unify_ok_iff`), and the arguments found are most general
(`Instantiates.mostGeneral`).

One thing is left that depends on how a type is written: a parameter that was
never replaced is equal only to itself, and it is looked for in what is written.
A type is plain when that makes no difference.
-/

namespace DotCall.TypeStore

open DotCall.Tree

section Comparing

variable {s : TypeStore} {a b : TypeId} {position : Position}

/-- The same type, or one with an error, is equal without further ado. -/
theorem compare_equal (h : (s.summary a).hasError = true ∨ (s.summary b).hasError = true ∨ a = b) :
    s.compare a b position = .equal := by
  unfold compare
  rcases h with h | h | h <;> simp [h]

/-- Facing two types compares their roots in the store with shortened links. -/
theorem Ordered.facing_eq (h : s.Ordered) {e : Equation} (he : s.Poses e) :
    (s.facing e).1 = (s.facing e).2.compare (s.root e.left) (s.root e.right) e.position := by
  obtain ⟨hl, hsl⟩ := h.findRoot_run e.left
  obtain ⟨hr, -⟩ := (hsl.ordered h).findRoot_run e.right
  simp only [facing, hl, hr, hsl.keeps.root_eq h (hsl.ordered h) he.2]

end Comparing

namespace Sound

variable {s : TypeStore} {a b t : TypeId} {σ : Assignment}

/-- The flag of a root says whether an error occurs in the meaning. -/
theorem hasError_root_iff (h : s.Sound) (t : TypeId) :
    (s.summary (s.root t)).hasError = true ↔ (s.meaning t).HasError := by
  rw [h.hasError_iff, h.ordered.meaning_root]
  rfl

/-- A type is clean when its root is. -/
theorem clean_root_iff (h : s.Sound) (t : TypeId) : s.Clean (s.root t) ↔ s.Clean t := by
  rw [h.clean_iff, h.clean_iff, h.ordered.meaning_root]

/-- Types that are not both clean unify only when an error lets them pass or they
are the same, and nothing is assigned. -/
theorem unify_of_not_clean (h : s.Sound) (ha : s.Has a) (hb : s.Has b)
    (hc : ¬ (s.Clean a ∧ s.Clean b)) :
    Shortens s ((unify a b).run s).2 ∧
      (((unify a b).run s).1 = .ok () ↔
        (s.meaning a).HasError ∨ (s.meaning b).HasError ∨ s.root a = s.root b) := by
  have hposed : s.Poses ⟨a, b, .whole⟩ := ⟨ha, hb⟩
  obtain ⟨hshort, -, hcmp⟩ := h.ordered.facing_spec hposed
  have hcompare := h.ordered.facing_eq hposed
  have hrun := h.ordered.unify_solving ha hb
  have hsum := hshort.summary_eq
  have hunclean : ¬ (s.Clean (s.root a) ∧ s.Clean (s.root b)) := by
    rwa [h.clean_root_iff, h.clean_root_iff]
  generalize ((unify a b).run s).1 = r at hrun ⊢
  generalize ((unify a b).run s).2 = s' at hrun ⊢
  rw [← h.hasError_root_iff, ← h.hasError_root_iff]
  cases hrun with
  | same heq tail =>
      cases tail
      have hab : a = b := heq
      exact ⟨.refl s, iff_of_true rfl (by simp [hab])⟩
  | equal hne hface tail =>
      cases tail
      rw [hface] at hshort hcmp hsum
      refine ⟨hshort, iff_of_true rfl ?_⟩
      simp only at hsum hcmp
      cases hcmp with
      | same heq => exact .inr (.inr heq)
      | error _ herr =>
          rw [hsum] at herr
          exact herr.imp_right .inl
  | clash hne hface =>
      rw [hface] at hshort hcompare hsum
      refine ⟨hshort, iff_of_false (by simp) fun hpass => ?_⟩
      simp only at hsum hcompare
      rw [← hsum] at hpass
      rw [compare_equal hpass] at hcompare
      cases hcompare
  | assign hne hface tail =>
      rw [hface] at hcmp hsum
      simp only at hsum hcmp
      cases hcmp with
      | assign _ herr hparam _ _ _ =>
          rw [hsum] at herr hparam
          exact absurd ⟨⟨herr.1, hparam.1⟩, herr.2, hparam.2⟩ hunclean
  | parts hne hface tail =>
      rw [hface] at hcmp hsum
      simp only at hsum hcmp
      cases hcmp with
      | parts _ herr hparam _ _ _ =>
          rw [hsum] at herr hparam
          exact absurd ⟨⟨herr.1, hparam.1⟩, herr.2, hparam.2⟩ hunclean

/-- **When types unify.** -/
theorem unify_ok_iff_cases (h : s.Sound) (ha : s.Has a) (hb : s.Has b) :
    ((unify a b).run s).1 = .ok () ↔
      (s.meaning a).HasError ∨ (s.meaning b).HasError ∨ s.root a = s.root b ∨
        (s.meaning a).Proper ∧ (s.meaning b).Proper ∧
          ∃ σ : Assignment, (s.meaning a).subst σ = (s.meaning b).subst σ := by
  by_cases hc : s.Clean a ∧ s.Clean b
  · have hpa := (h.clean_iff a).mp hc.1
    have hpb := (h.clean_iff b).mp hc.2
    rw [h.unify_ok_iff ha hb hc.1 hc.2]
    refine ⟨fun hσ => .inr (.inr (.inr ⟨hpa, hpb, hσ⟩)), ?_⟩
    rintro (he | he | hroot | ⟨-, -, hσ⟩)
    · exact absurd he (proper_iff.mp hpa).1
    · exact absurd he (proper_iff.mp hpb).1
    · have hsame : s.meaning a = s.meaning b := by
        rw [← h.ordered.meaning_root, hroot, h.ordered.meaning_root]
      exact ⟨fun id => .atom (.var id), by rw [hsame]⟩
    · exact hσ
  · rw [(h.unify_of_not_clean ha hb hc).2]
    refine ⟨?_, ?_⟩
    · rintro (he | he | hroot)
      · exact .inl he
      · exact .inr (.inl he)
      · exact .inr (.inr (.inl hroot))
    · rintro (he | he | hroot | ⟨hpa, hpb, -⟩)
      · exact .inl he
      · exact .inr (.inl he)
      · exact .inr (.inr hroot)
      · exact absurd ⟨(h.clean_iff a).mpr hpa, (h.clean_iff b).mpr hpb⟩ hc

/-- What is assigned says no more than that clean types are equal. -/
theorem allows_after_unify (h : s.Sound) (ha : s.Has a) (hb : s.Has b)
    (hok : ((unify a b).run s).1 = .ok ()) (hσ : s.Allows σ)
    (heq : (s.meaning a).Proper → (s.meaning b).Proper → s.value σ a = s.value σ b) :
    ((unify a b).run s).2.Allows σ := by
  by_cases hc : s.Clean a ∧ s.Clean b
  · refine (h.allows_of_unify_ok ha hb hc.1 hc.2 hok σ).mpr ⟨hσ, ?_⟩
    exact heq ((h.clean_iff a).mp hc.1) ((h.clean_iff b).mp hc.2)
  · obtain ⟨hshort, -⟩ := h.unify_of_not_clean ha hb hc
    exact (h.ordered.allows_iff_of_keeps (hshort.ordered h.ordered) hshort.keeps).mpr hσ

/-- Unless an error lets them pass, types that were unified are equal under what
is allowed afterwards. -/
theorem value_eq_after_unify (h : s.Sound) (ha : s.Has a) (hb : s.Has b)
    (hok : ((unify a b).run s).1 = .ok ()) (hea : ¬ (s.meaning a).HasError)
    (heb : ¬ (s.meaning b).HasError) (hσ : ((unify a b).run s).2.Allows σ) :
    s.Allows σ ∧ s.value σ a = s.value σ b := by
  by_cases hc : s.Clean a ∧ s.Clean b
  · exact (h.allows_of_unify_ok ha hb hc.1 hc.2 hok σ).mp hσ
  · obtain ⟨hshort, hcases⟩ := h.unify_of_not_clean ha hb hc
    rw [h.ordered.allows_iff_of_keeps (hshort.ordered h.ordered) hshort.keeps] at hσ
    have hroot := ((hcases.mp hok).resolve_left hea).resolve_left heb
    refine ⟨hσ, ?_⟩
    rw [← h.ordered.value_root hσ a, hroot, h.ordered.value_root hσ b]

/-- A free variable unifies with a type without variables, and means it from then
on. -/
theorem unify_var_fixed (h : s.Sound) {id : Nat} (hv : s.node a = .atom (.var id))
    (hfree : ∀ u, s.binding id ≠ .linked u) (ha : s.Has a) (hb : s.Has b)
    (hfixed : (s.written b).Fixed) (hproper : (s.written b).Proper) :
    let r := (unify a b).run s
    r.1 = .ok () ∧ r.2.meaning a = s.written b := by
  intro r
  have hma : s.meaning a = .atom (.var id) := by
    rw [h.ordered.meaning_eq_written, WellFormed.written_of_atom hv]
    simpa [WellFormed.written_of_atom hv] using hfree
  have hmb : s.meaning b = s.written b :=
    h.ordered.meaning_eq_written fun i hi => absurd hi (hfixed i)
  have hpa : (s.meaning a).Proper := by simp [hma, Proper, Atom.IsError, Atom.IsParam]
  have hok : r.1 = .ok () := by
    refine (h.unify_ok_iff_cases ha hb).mpr (.inr (.inr (.inr ⟨hpa, hmb ▸ hproper, ?_⟩)))
    refine ⟨fun _ => s.written b, ?_⟩
    rw [hma, hmb, subst_var, subst_of_no_var hfixed]
  obtain ⟨hs', hbinds⟩ := h.unify_sound ha hb
  have hwritten := written_congr hbinds.entries
  have hequal : r.2.meaning a = r.2.meaning b := by
    apply hs'.ordered.meaning_eq_of_value_eq
    intro σ hσ
    rw [value_congr hbinds.entries]
    exact (h.value_eq_after_unify ha hb hok (proper_iff.mp hpa).1
      (proper_iff.mp (hmb ▸ hproper)).1 hσ).2
  refine ⟨hok, ?_⟩
  rw [hequal, hs'.ordered.meaning_eq_written, hwritten]
  rw [hwritten]
  exact fun i hi => absurd hi (hfixed i)

end Sound

/-- Where a parameter occurs in what the type means, the type is written as it is
meant. -/
def Plain (s : TypeStore) (t : TypeId) : Prop :=
  (s.meaning t).HasParam → s.written t = s.meaning t

/-- Quiet work has led from `x` to `y`, where `args` are `n` new variables and `e`
is the pattern instantiated with them. -/
structure Instantiates (x y : TypeStore) (pattern : Tree) (n : Nat) (args : List TypeId)
    (e : TypeId) : Prop where
  quiet : Quiet x y
  nodes : args.map y.node = (List.range' x.variableCount n).map fun id => .atom (.var id)
  reads : y.Reads (pattern.withVars x.variableCount n) e

/-- Lists that agree in one way agree in every way that follows from it. -/
theorem map_eq_map_of_imp {α β γ δ : Type} {f : α → γ} {g : β → γ} {f' : α → δ} {g' : β → δ}
    {xs : List α} {ys : List β} (h : xs.map f = ys.map g)
    (himp : ∀ x y, f x = g y → f' x = g' y) : xs.map f' = ys.map g' := by
  induction xs generalizing ys with
  | nil =>
      cases ys with
      | nil => rfl
      | cons y ys => simp at h
  | cons x xs ih =>
      cases ys with
      | nil => simp at h
      | cons y ys =>
          simp only [List.map_cons, List.cons.injEq] at h ⊢
          exact ⟨himp x y h.1, ih h.2⟩

/-- Fresh variables and an instance with them are what `Instantiates` asks for. -/
theorem Ordered.instantiates_run {x : TypeStore} (h : x.Ordered) {pattern : TypeId}
    (hp : x.Has pattern) (n : Nat) :
    let args := (newVars n).run x
    let e := (instantiate pattern args.1).run args.2
    Instantiates x e.2 (x.written pattern) n args.1 e.1 := by
  intro args e
  obtain ⟨hq, -, hnodes⟩ := h.newVars_run n
  have hwritten : args.1.map args.2.written =
      (List.range' x.variableCount n).map fun id => .atom (.var id) :=
    map_eq_map_of_imp hnodes fun _ _ hn => WellFormed.written_of_atom hn
  have hhas : ∀ a ∈ args.1, args.2.Has a := by
    intro a ha
    have hmem : args.2.node a ∈ args.1.map args.2.node := List.mem_map_of_mem ha
    rw [hnodes] at hmem
    obtain ⟨id, -, hn⟩ := List.mem_map.mp hmem
    exact has_of_node_ne (by simp [← hn])
  obtain ⟨hq', hreads⟩ := hq.finish.instantiate_run hhas (hq.has hp)
  rw [hwritten, hq.written_eq hp] at hreads
  refine ⟨hq.trans hq', ?_, hreads⟩
  rw [← hnodes]
  exact List.map_congr_left fun a ha => hq'.node_eq (hhas a ha)

namespace Instantiates

variable {x y : TypeStore} {pattern : Tree} {n : Nat} {args : List TypeId} {e t : TypeId}

/-- There is one argument for each parameter. -/
theorem length (h : Instantiates x y pattern n args e) : args.length = n := by
  have hlen := congrArg List.length h.nodes
  simpa using hlen

/-- The arguments are types of the store. -/
theorem has_args (h : Instantiates x y pattern n args e) : ∀ a ∈ args, y.Has a := by
  intro a ha
  have hmem : y.node a ∈ args.map y.node := List.mem_map_of_mem ha
  rw [h.nodes] at hmem
  obtain ⟨id, -, hn⟩ := List.mem_map.mp hmem
  exact has_of_node_ne (by simp [← hn])

/-- The variables of the instance are new, hence not linked. -/
theorem not_linked (h : Instantiates x y pattern n args e) (hfixed : pattern.Fixed) {id : Nat}
    (hid : .var id ∈ (y.written e).atoms) : x.variableCount ≤ id ∧ ∀ u, y.binding id ≠ .linked u := by
  rw [h.reads.2] at hid
  have hge : x.variableCount ≤ id := by
    rcases mem_atoms_withVars.mp hid with ⟨hid, -⟩ | ⟨position, -, -, heq⟩
    · exact absurd hid (hfixed id)
    · have := Atom.var.inj heq
      omega
  exact ⟨hge, h.quiet.keeps.fresh id hge⟩

/-- A pattern without variables of its own means the pattern with the fresh variables put
in. -/
theorem meaning_eq (h : Instantiates x y pattern n args e) (hfixed : pattern.Fixed) :
    y.meaning e = pattern.withVars x.variableCount n := by
  rw [← h.reads.2]
  exact h.quiet.finish.meaning_eq_written fun id hid => (h.not_linked hfixed hid).2

/-- An instance is the same as an earlier type only when nothing was put into the
pattern. -/
theorem bare_of_root_eq (h : Instantiates x y pattern n args e) (hfixed : pattern.Fixed)
    (ht : x.Has t) (heq : y.root e = y.root t) : x.meaning t = pattern ∧ pattern.Bare n := by
  have hlink : y.link? e = none := by
    rw [link?_eq_none]
    intro id u hn
    refine (h.not_linked hfixed ?_).2 u
    rw [WellFormed.written_of_atom hn]
    simp
  rw [root_of_no_link hlink, h.quiet.root_eq ht] at heq
  have hhas : x.Has e := heq ▸ h.quiet.start.has_root ht
  have hbare : pattern.Bare n := by
    intro position hp
    by_cases hlt : position < n
    · have hmem : .var (x.variableCount + position) ∈ (y.written e).atoms := by
        rw [h.reads.2]
        exact mem_atoms_withVars.mpr (.inr ⟨position, hlt, hp, rfl⟩)
      rw [h.quiet.written_eq hhas] at hmem
      have := h.quiet.start.wellFormed.var_lt_of_written hmem
      omega
    · exact Nat.le_of_not_lt hlt
  refine ⟨?_, hbare⟩
  rw [← hbare.withVars_eq x.variableCount, ← h.meaning_eq hfixed,
    h.quiet.meaning_eq hhas, heq, h.quiet.start.meaning_root]

/-- The assignment that puts `others` for the new variables and is `σ` before. -/
def choosing (first : Nat) (σ : Assignment) (others : List Tree) : Assignment := fun id =>
  if id < first then σ id else others[id - first]?.getD (.atom (.var id))

/-- The chosen assignment gives each fresh variable its tree. -/
theorem map_choosing (first : Nat) (σ : Assignment) (others : List Tree) :
    (List.range' first others.length).map (choosing first σ others) = others := by
  refine List.ext_getElem (by simp) fun i hi hi' => ?_
  simp [choosing, hi']

/-- Under an assignment of the new variables the instance becomes the pattern
filled with what they are assigned, and an earlier type does not see them. -/
theorem subst_choosing (h : Instantiates x y pattern n args e) (hfixed : pattern.Fixed)
    (ht : x.Has t) {σ : Assignment} {others : List Tree} (hlen : others.length = n) :
    (y.meaning e).subst (choosing x.variableCount σ others) = pattern.fill others ∧
      (y.meaning t).subst (choosing x.variableCount σ others) = (x.meaning t).subst σ := by
  constructor
  · rw [h.meaning_eq hfixed, hfixed.subst_withVars, ← hlen, map_choosing]
  · rw [h.quiet.meaning_eq ht]
    refine subst_congr fun id hid => ?_
    obtain ⟨v, hv, -⟩ := h.quiet.start.descends_of_mem_meaning hid
    exact if_pos (h.quiet.start.wellFormed.var_lt hv)

section Unifying

variable (hs : x.Sound) (h : Instantiates x y pattern n args e) (hfixed : pattern.Fixed)
  (ht : x.Has t)

include hs h hfixed ht

/-- **Matching is a matter of trees.**  An instance of a pattern unifies with a type
exactly when the pattern matches what the type means. -/
theorem unify_ok_iff (hplain : pattern.Scoped n ∨ x.Plain t) :
    ((unify e t).run y).1 = .ok () ↔ pattern.Matches n (x.meaning t) := by
  have hy : y.Sound := hs.quiet h.quiet
  have hty : y.Has t := h.quiet.has ht
  rw [hy.unify_ok_iff_cases h.reads.1 hty, h.quiet.meaning_eq ht, h.meaning_eq hfixed,
    withVars_hasError, withVars_proper]
  constructor
  · rintro (he | he | hroot | ⟨⟨-, hscoped⟩, hproper, σ, hσ⟩)
    · exact .inr (.inl he)
    · exact .inl he
    · exact .inr (.inr (.inl (h.bare_of_root_eq hfixed ht hroot)))
    · rw [hfixed.subst_withVars] at hσ
      exact .inr (.inr (.inr ⟨hproper, hscoped, _, by simp, σ, hσ⟩))
  · rintro (he | he | ⟨hsame, hbare⟩ | ⟨hproper, hscoped, others, hlen, σ, hσ⟩)
    · exact .inr (.inl he)
    · exact .inl he
    · by_cases he : pattern.HasError
      · exact .inl he
      by_cases hscoped : pattern.Scoped n
      · -- no parameter is left at all
        have hproper : pattern.Proper := by
          rw [proper_iff]
          refine ⟨he, ?_⟩
          rintro ⟨_, ha, position, rfl⟩
          have := hscoped position ha
          have := hbare position ha
          omega
        refine .inr (.inr (.inr ⟨⟨he, hscoped⟩, hsame ▸ hproper, fun id => .atom (.var id), ?_⟩))
        rw [hbare.withVars_eq, hsame]
      · -- the type is written as the pattern, so it is the instance
        have hparam : pattern.HasParam := by
          rw [← hbare.withVars_eq x.variableCount, withVars_hasParam]
          exact hscoped
        have hwritten : x.written t = pattern :=
          (hplain.resolve_left hscoped (hsame ▸ hparam)).trans hsame
        have heq : e = t := by
          refine hy.wellFormed.written_injective h.reads.1 hty ?_
          rw [h.reads.2, hbare.withVars_eq, h.quiet.written_eq ht, hwritten]
        exact .inr (.inr (.inl (by rw [heq])))
    · by_cases he : pattern.HasError
      · exact .inl he
      obtain ⟨hpattern, htree⟩ := h.subst_choosing hfixed ht (σ := σ) hlen
      rw [h.meaning_eq hfixed] at hpattern
      rw [h.quiet.meaning_eq ht] at htree
      exact .inr (.inr (.inr ⟨⟨he, hscoped⟩, hproper, _, by rw [hpattern, htree, hσ]⟩))

/-- **Matching finds the most general arguments.** -/
theorem mostGeneral (hok : ((unify e t).run y).1 = .ok ()) :
    MostGeneral (pattern.Suits (x.meaning t)) (args.map ((unify e t).run y).2.meaning) := by
  have hy : y.Sound := hs.quiet h.quiet
  have hty : y.Has t := h.quiet.has ht
  obtain ⟨hz, hbinds⟩ := hy.unify_sound h.reads.1 hty
  have hvalue : ∀ σ, args.map (((unify e t).run y).2.value σ) =
      (List.range' x.variableCount n).map σ := fun σ =>
    map_eq_map_of_imp h.nodes fun a id hn => by
      rw [value_congr hbinds.entries, value_of_var hn]
  constructor
  · by_cases he : (x.meaning t).HasError
    · exact .inl he
    by_cases he' : pattern.HasError
    · exact .inr (.inl he')
    -- the assignment that the links amount to makes both equal
    obtain ⟨hσ, heq⟩ := hy.value_eq_after_unify h.reads.1 hty hok
      (by rwa [h.meaning_eq hfixed, withVars_hasError]) (by rwa [h.quiet.meaning_eq ht])
      (hz.ordered.allows_completed fun id => .atom (.var id))
    rw [← hy.ordered.subst_meaning hσ, ← hy.ordered.subst_meaning hσ, h.meaning_eq hfixed,
      hfixed.subst_withVars, h.quiet.meaning_eq ht, ← hvalue] at heq
    have hargs : args.map ((unify e t).run y).2.meaning = args.map (((unify e t).run y).2.value
        (((unify e t).run y).2.completed fun id => .atom (.var id))) :=
      List.map_congr_left fun a _ => hz.ordered.meaning_eq_value a
    exact .inr (.inr ⟨_, by rw [hargs, heq]⟩)
  · intro others hlen hsuits
    rw [List.length_map, h.length] at hlen
    obtain ⟨σ, hσ⟩ : ∃ σ : Assignment, (y.meaning e).Proper → (y.meaning t).Proper →
        pattern.fill others = (x.meaning t).subst σ := by
      rcases hsuits with he | he | ⟨σ, hσ⟩
      · refine ⟨fun id => .atom (.var id), fun _ hproper => absurd he ?_⟩
        rw [h.quiet.meaning_eq ht] at hproper
        exact (proper_iff.mp hproper).1
      · refine ⟨fun id => .atom (.var id), fun hproper _ => absurd he ?_⟩
        rw [h.meaning_eq hfixed, withVars_proper] at hproper
        exact hproper.1
      · exact ⟨σ, fun _ _ => hσ⟩
    obtain ⟨hpattern, htree⟩ := h.subst_choosing hfixed ht (σ := σ) hlen
    have hallows := hy.allows_after_unify h.reads.1 hty hok
      (hy.ordered.allows_completed (choosing x.variableCount σ others)) (by
        rw [hy.ordered.value_completed, hy.ordered.value_completed, hpattern, htree]
        exact hσ)
    refine ⟨y.completed (choosing x.variableCount σ others), ?_⟩
    rw [List.map_map]
    have hargs : args.map (subst (y.completed (choosing x.variableCount σ others)) ∘
        ((unify e t).run y).2.meaning) =
        (List.range' x.variableCount n).map (y.completed (choosing x.variableCount σ others)) := by
      rw [← hvalue]
      exact List.map_congr_left fun a _ => hz.ordered.subst_meaning hallows a
    rw [hargs, ← hlen]
    conv_rhs => rw [← map_choosing x.variableCount σ others]
    refine List.map_congr_left fun id hid => ?_
    rw [completed_of_not_linked]
    exact h.quiet.keeps.fresh id (List.mem_range'_1.mp hid).1

end Unifying

end Instantiates

section Opened

variable {s : TypeStore}

theorem Sound.opened (h : s.Sound) : s.opened.Sound := h.congr rfl rfl rfl

/-- A new checkpoint changes no meaning. -/
theorem opened_meaning (t : TypeId) : s.opened.meaning t = s.meaning t := by
  have hroot : s.opened.root = s.root := funext opened_root
  have htree : ∀ read n t, s.opened.treeWithin read n t = s.treeWithin read n t := by
    intro read n
    induction n with
    | zero => exact fun _ => rfl
    | succ n ih =>
        intro t
        have hnode : s.opened.node (read t) = s.node (read t) := rfl
        simp only [treeWithin, hnode]
        cases s.node (read t) with
        | atom a => rfl
        | app f args => simp only [List.map_congr_left fun a _ => ih a]
  unfold meaning
  rw [hroot]
  exact htree _ _ t

theorem opened_written : s.opened.written = s.written := written_congr rfl

theorem Plain.opened {t : TypeId} (h : s.Plain t) : s.opened.Plain t := by
  intro hparam
  rw [opened_meaning] at hparam ⊢
  rw [opened_written]
  exact h hparam

end Opened

/-- Unify a new instance of the pattern with the type. -/
def attempt (pattern : TypeId) (n : Nat) (t : TypeId) : StateM TypeStore Bool := do
  let args ← newVars n
  let e ← instantiate pattern args
  unifies e t

/-- What is known after an instance of the pattern was unified under a checkpoint. -/
theorem Sound.unify_instance {x : TypeStore} (hs : x.Sound) {pattern t : TypeId} {n : Nat}
    (hp : x.Has pattern) (hfixed : (x.written pattern).Fixed) (ht : x.Has t)
    (hplain : (x.written pattern).Scoped n ∨ x.Plain t) :
    let args := (newVars n).run x.opened
    let e := (instantiate pattern args.1).run args.2
    let r := (unify e.1 t).run e.2
    Instantiates x.opened e.2 (x.written pattern) n args.1 e.1 ∧ Works x.opened r.2 ∧ r.2.Sound ∧
      Binds e.2 r.2 ∧
      (r.1 = .ok () ↔ (x.written pattern).Matches n (x.meaning t)) ∧
      (r.1 = .ok () →
        MostGeneral ((x.written pattern).Suits (x.meaning t)) (args.1.map r.2.meaning)) := by
  intro args e r
  have hso := hs.opened
  have hi : Instantiates x.opened e.2 (x.written pattern) n args.1 e.1 := by
    have hrun := hso.ordered.instantiates_run (show x.opened.Has pattern from hp) n
    rwa [opened_written] at hrun
  obtain ⟨hz, hbinds⟩ := (hso.quiet hi.quiet).unify_sound hi.reads.1 (hi.quiet.has (t := t) ht)
  refine ⟨hi, hi.quiet.toWorks.trans (.of_binds hbinds hi.quiet.finish hz.ordered), hz, hbinds, ?_, ?_⟩
  · rw [← opened_meaning (s := x) t]
    exact hi.unify_ok_iff hso hfixed ht (hplain.imp_right Plain.opened)
  · intro hok
    rw [← opened_meaning (s := x) t]
    exact hi.mostGeneral hso hfixed ht hok

/-- **A trial** is quiet and tells whether the pattern matches. -/
theorem Sound.trial_run {x : TypeStore} (hs : x.Sound) {pattern t : TypeId} {n : Nat}
    (hp : x.Has pattern) (hfixed : (x.written pattern).Fixed) (ht : x.Has t)
    (hplain : (x.written pattern).Scoped n ∨ x.Plain t) :
    let r := (tentatively (attempt pattern n t)).run x
    Quiet x r.2 ∧ (r.1 = true ↔ (x.written pattern).Matches n (x.meaning t)) := by
  intro r
  obtain ⟨-, hworks, -, -, hiff, -⟩ := hs.unify_instance hp hfixed ht hplain
  have hrun : (attempt pattern n t).run x.opened =
      (unifies ((instantiate pattern ((newVars n).run x.opened).1).run
        ((newVars n).run x.opened).2).1 t).run
        ((instantiate pattern ((newVars n).run x.opened).1).run ((newVars n).run x.opened).2).2 := rfl
  rw [unifies_run] at hrun
  have hattempt : Works x.opened ((attempt pattern n t).run x.opened).2 := by
    rw [hrun]
    exact hworks
  obtain ⟨hanswer, hq⟩ := tentatively_quiet hs.ordered hattempt
  refine ⟨hq, ?_⟩
  rw [← hiff, hanswer, hrun]
  exact decide_eq_true_iff

end DotCall.TypeStore
