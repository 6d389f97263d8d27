import DotCall.Proofs.PatternMatching

/-!
# Patterns that cover a type

Unification assigns variables on either side of an equation.  But a pattern may cover
a type: what the type means is the pattern itself with something put for its
parameters.  To match such a pattern only the parameters have to be assigned, and
indeed only they are.  The instance of the pattern stands on the left, and of two
variables the left one is assigned, so no variable of the type is ever given the
name of a new one (`Instantiates.unify_spares`).

Conversely, a pattern that was matched without an assignment to a variable of the type
covers it (`Instantiates.covers_iff`), and the arguments found are parts of the type,
with the variables that it has.
-/

namespace DotCall

open DotCall.Tree

/-- With these arguments the pattern is the tree itself.  An error on either side is
let pass. -/
def Tree.Covers (pattern tree : Tree) (args : List Tree) : Prop :=
  tree.HasError ∨ pattern.HasError ∨ pattern.fill args = tree

namespace TypeStore

/-- Where a comparison assigns a variable, it takes the one on the left if there is
one. -/
theorem compare_eq_assign {s : TypeStore} {a b t : TypeId} {position : Position} {id : Nat}
    (h : s.compare a b position = .assign id t) :
    s.node a = .atom (.var id) ∨
      (∀ i, s.node a ≠ .atom (.var i)) ∧ s.node b = .atom (.var id) := by
  have hvar : ∀ {i c}, s.compareVar i c position = .assign id t → i = id := by
    intro i c hc
    unfold compareVar at hc
    split at hc
    · cases hc
    · split at hc
      · exact (Comparison.assign.inj hc).1
      · cases hc
      · cases hc
  have hlayers : s.compareLayers a b position ≠ .assign id t := by
    unfold compareLayers
    repeat' split
    all_goals exact Comparison.noConfusion
  unfold compare at h
  repeat' split at h
  all_goals first | cases h | skip
  · next i hn => exact .inl (hvar h ▸ hn)
  · next i hn hna => exact .inr ⟨hna, hvar h ▸ hn⟩
  · exact absurd h hlayers

/-- Equations that `κ` solves without touching a type of `x`: their right sides are
types of `x`, links between types of `x` stay inside, and `κ` leaves the variables of
`x` that are not linked as they are. -/
structure OneWay (x s : TypeStore) (κ : Assignment) (equations : List Equation) : Prop where
  sound : s.Sound
  grows : Grows x s
  inside : ∀ {id u}, id < x.variableCount → s.binding id = .linked u → x.Has u
  idle : ∀ {id}, id < x.variableCount → (∀ u, s.binding id ≠ .linked u) → κ id = .atom (.var id)
  allows : s.Allows κ
  posed : ∀ e ∈ equations, s.Poses e
  clean : ∀ e ∈ equations, s.Clean e.left ∧ s.Clean e.right
  right : ∀ e ∈ equations, x.Has e.right
  solves : s.Solves κ equations

namespace OneWay

variable {x s s₁ s' : TypeStore} {κ : Assignment} {e : Equation} {rest equations : List Equation}
  {id : Nat} {t : TypeId}

/-- The root of a type of `x` is one. -/
theorem has_root (h : OneWay x s κ equations) (hx : x.WellFormed) (ht : x.Has t) :
    x.Has (s.root t) := by
  induction t using h.sound.ordered.link_induction with
  | here t hl => rwa [root_of_no_link hl]
  | link t id u hl ih =>
      obtain ⟨hn, hb⟩ := link?_eq_some.mp hl
      rw [h.grows.node_eq ht] at hn
      rw [h.sound.ordered.root_of_link hl]
      exact ih (h.inside (hx.var_lt hn) hb)

/-- What holds of all equations holds of those after the first. -/
theorem tail (h : OneWay x s κ (e :: rest)) : OneWay x s κ rest :=
  { h with
    posed := fun e' he' => h.posed e' (List.mem_cons_of_mem _ he')
    clean := fun e' he' => h.clean e' (List.mem_cons_of_mem _ he')
    right := fun e' he' => h.right e' (List.mem_cons_of_mem _ he')
    solves := fun e' he' => h.solves e' (List.mem_cons_of_mem _ he') }

/-- Looking at the first equation leaves the others one-way. -/
theorem faced (h : OneWay x s κ (e :: rest)) (hx : x.WellFormed) :
    OneWay x (s.facing e).2 κ rest := by
  obtain ⟨hshort, h₁, -⟩ := h.sound.ordered.facing_spec (h.posed e List.mem_cons_self)
  have htail := h.tail
  exact
    { sound := h.sound.shorten hshort
      grows := h.grows.trans hshort.keeps.grows
      inside := fun hid hb => by
        obtain ⟨u, hu, rfl | rfl⟩ := hshort.keeps.linked_cases hb
        · exact h.inside hid hu
        · exact h.has_root hx (h.inside hid hu)
      idle := fun hid hfree => h.idle hid fun u hb => by
        obtain ⟨v, hv, -⟩ := hshort.keeps.linked_root h.sound.ordered h₁ hb
        exact hfree v hv
      allows := (h.sound.ordered.allows_iff_of_keeps h₁ hshort.keeps).mpr h.allows
      posed := fun e' he' => (htail.posed e' he').imp hshort.has_iff.mpr hshort.has_iff.mpr
      clean := fun e' he' => by simpa [Clean, hshort.summary_eq] using htail.clean e' he'
      right := htail.right
      solves := (solves_congr hshort.entries).mpr htail.solves }

/-- What the first equation leaves to be done is fulfilled. -/
theorem fulfils (h : OneWay x s κ (e :: rest)) : (s.facing e).2.Fulfils κ (s.facing e).1 := by
  have hclean := h.clean e List.mem_cons_self
  have hiff := h.sound.facing_iff (h.posed e List.mem_cons_self) hclean.1 hclean.2 κ
  exact (hiff.2 h.allows).mp (solves_cons.mp h.solves).1

/-- **No variable of `x` is assigned.**  It would be solved by itself only, hence be the
same on both sides. -/
theorem le_of_assign (h : OneWay x s κ (e :: rest)) (hx : x.WellFormed)
    (hface : s.facing e = (.assign id t, s₁)) : x.variableCount ≤ id := by
  have hposed := h.posed e List.mem_cons_self
  obtain ⟨hshort, -, hcmp⟩ := h.sound.ordered.facing_spec hposed
  have hcompare := h.sound.ordered.facing_eq hposed
  have hfaced := h.faced hx
  have hold := h.has_root hx (h.right e List.mem_cons_self)
  have hsame := (solves_cons.mp h.solves).1
  rw [← h.sound.ordered.value_root h.allows e.left,
    ← h.sound.ordered.value_root h.allows e.right] at hsame
  rw [hface] at hshort hcmp hcompare hfaced
  have hne : s.root e.left ≠ s.root e.right := by
    cases hcmp with
    | assign hne => exact hne
  have hfree : ∀ u, s₁.binding id ≠ .linked u := by
    cases hcmp with
    | assign _ _ _ _ _ hfree => simp [hfree]
  have hnode : s₁.node = s.node := hshort.node_eq
  have hunlinked : ∀ {t i}, s.Has t → s.node (s.root t) = .atom (.var i) →
      ∀ u, s₁.binding i ≠ .linked u := by
    intro t i ht hn u hb
    obtain ⟨v, hv, -⟩ := hshort.keeps.linked_cases hb
    exact link?_eq_none.mp (h.sound.ordered.link?_root t) i v hn hv
  apply Nat.le_of_not_lt
  intro hlt
  have hself : κ id = .atom (.var id) := hfaced.idle hlt hfree
  rcases compare_eq_assign hcompare.symm with hleft | ⟨hleft, hright⟩
  · rw [hnode] at hleft
    rw [value_of_var hleft, hself] at hsame
    cases hn : s.node (s.root e.right) with
    | app f args =>
        rw [h.sound.wellFormed.value_of_app hn] at hsame
        cases hsame
    | atom a =>
        by_cases hvar : ∃ i, a = .var i
        · obtain ⟨i, rfl⟩ := hvar
          have hi : i < x.variableCount := hx.var_lt ((h.grows.node_eq hold).symm.trans hn)
          rw [value_of_var hn, hfaced.idle hi (hunlinked hposed.2 hn)] at hsame
          obtain rfl : id = i := by simpa using hsame
          exact hne (h.sound.wellFormed.node_injective (h.sound.ordered.has_root hposed.1)
            (h.sound.ordered.has_root hposed.2) (hleft.trans hn.symm))
        · rw [value_of_atom hn fun i hi => hvar ⟨i, hi⟩] at hsame
          obtain rfl := Tree.atom.inj hsame
          exact hvar ⟨id, rfl⟩
  · rw [hnode] at hleft hright
    rw [value_of_var hright, hself] at hsame
    cases hn : s.node (s.root e.left) with
    | app f args =>
        rw [h.sound.wellFormed.value_of_app hn] at hsame
        cases hsame
    | atom a =>
        have ha : ∀ i, a ≠ .var i := fun i hi => hleft i (hi ▸ hn)
        rw [value_of_atom hn ha] at hsame
        exact ha id (Tree.atom.inj hsame)

/-- Assigning leaves the other equations one-way, and the variables of `x` as they
were. -/
theorem assigned (h : OneWay x s κ (e :: rest)) (hx : x.WellFormed)
    (hface : s.facing e = (.assign id t, s₁)) :
    OneWay x (s₁.assigned id (.linked t)) κ rest ∧
      ∀ v < x.variableCount, (s₁.assigned id (.linked t)).binding v = s₁.binding v := by
  have hposed := h.posed e List.mem_cons_self
  have hge := h.le_of_assign hx hface
  have hfaced := h.faced hx
  have hfulfils := h.fulfils
  obtain ⟨hshort, h₁, hcmp⟩ := h.sound.ordered.facing_spec hposed
  rw [hface] at hshort h₁ hcmp hfaced hfulfils
  have hl := hshort.has_iff.mpr (h.sound.ordered.has_root hposed.1)
  have hr := hshort.has_iff.mpr (h.sound.ordered.has_root hposed.2)
  have hlink := h₁.linkable_of_compared hcmp hl hr
  have hold : ∀ v < x.variableCount,
      (s₁.assigned id (.linked t)).binding v = s₁.binding v := fun v hv => by
    rw [hlink.binding_eq, if_neg (by omega)]
  have hrest : (s₁.assigned id (.linked t)).Solves κ rest ↔ s₁.Solves κ rest := solves_congr rfl
  refine ⟨?_, hold⟩
  exact
    { sound := hfaced.sound.assign_sound hcmp hl hr
      grows := hfaced.grows.trans assigned_grows
      inside := fun {v _} hv hb => hfaced.inside hv (hold v hv ▸ hb)
      idle := fun {v} hv hfree => hfaced.idle hv (hold v hv ▸ hfree)
      allows := hlink.allows_iff.mpr ⟨hfaced.allows, hfulfils⟩
      posed := hfaced.posed
      clean := hfaced.clean
      right := hfaced.right
      solves := hrest.mpr hfaced.solves }

/-- The arguments of equations between patterns and types are again such equations, and
the pattern side is still the left one. -/
theorem parts (h : OneWay x s κ (e :: rest)) (hx : x.WellFormed)
    (hface : s.facing e = (.parts equations, s₁)) : OneWay x s₁ κ (equations ++ rest) := by
  have hold := h.has_root hx (h.right e List.mem_cons_self)
  have hfaced := h.faced hx
  have hfulfils := h.fulfils
  obtain ⟨hshort, h₁, hcmp⟩ := h.sound.ordered.facing_spec (h.posed e List.mem_cons_self)
  rw [hface] at hshort h₁ hcmp hfaced hfulfils
  have hright : ∀ e' ∈ equations, x.Has e'.right := by
    cases hcmp with
    | parts hne herr hparam ha hb hlen =>
        intro e' he'
        rw [hshort.node_eq, h.grows.node_eq hold] at hb
        exact hx.has_arg (t := s.root e.right) (by
          simpa [hb, Node.args] using (mem_argEquations he').2)
  exact
    { hfaced with
      posed := List.forall_mem_append.mpr ⟨h₁.wellFormed.poses_of_parts hcmp, hfaced.posed⟩
      clean := List.forall_mem_append.mpr ⟨h₁.wellFormed.clean_parts hcmp, hfaced.clean⟩
      right := List.forall_mem_append.mpr ⟨hright, hfaced.right⟩
      solves := solves_append.mpr ⟨hfulfils, hfaced.solves⟩ }

/-- **A run over one-way equations** links no variable of `x` that was not linked. -/
theorem solving_spares {r : Except Clash Unit} (h : OneWay x s κ equations) (hx : x.WellFormed)
    (hrun : Solving s equations r s') (hid : id < x.variableCount)
    (hfree : ∀ u, s.binding id ≠ .linked u) : ∀ u, s'.binding id ≠ .linked u := by
  have hshorten : ∀ {s : TypeStore} {e rest}, OneWay x s κ (e :: rest) →
      (∀ u, s.binding id ≠ .linked u) → ∀ u, (s.facing e).2.binding id ≠ .linked u := by
    intro s e rest h hfree u hb
    obtain ⟨hshort, -, -⟩ := h.sound.ordered.facing_spec (h.posed e List.mem_cons_self)
    obtain ⟨v, hv, -⟩ := hshort.keeps.linked_cases hb
    exact hfree v hv
  induction hrun with
  | done s => exact hfree
  | same heq tail ih => exact ih h.tail hfree
  | equal hne hface tail ih =>
      have hfaced := h.faced hx
      have hstill := hshorten h hfree
      rw [hface] at hfaced hstill
      exact ih hfaced hstill
  | clash hne hface =>
      have hstill := hshorten h hfree
      rwa [hface] at hstill
  | assign hne hface tail ih =>
      obtain ⟨hassigned, hold⟩ := h.assigned hx hface
      have hstill := hshorten h hfree
      rw [hface] at hstill
      exact ih hassigned (hold id hid ▸ hstill)
  | parts hne hface tail ih =>
      have hstill := hshorten h hfree
      rw [hface] at hstill
      exact ih (h.parts hx hface) hstill

end OneWay

/-- An instance of a pattern means the pattern filled with what its variables mean. -/
theorem Ordered.meaning_withVars {z : TypeStore} (h : z.Ordered) {pattern : Tree}
    (hfixed : pattern.Fixed) {args : List TypeId} {first n : Nat} {u : TypeId}
    (hnodes : args.map z.node = (List.range' first n).map fun id => .atom (.var id))
    (hu : z.written u = pattern.withVars first n) :
    z.meaning u = pattern.fill (args.map z.meaning) := by
  rw [h.meaning_eq_value, value, hu, hfixed.subst_withVars]
  refine congrArg (pattern.fill ·) (map_eq_map_of_imp hnodes fun a id hn => ?_).symm
  rw [h.meaning_eq_value, value_of_var hn]

/-- Where links were added but no variable of `x` was linked, its types mean what they
meant. -/
theorem Extends.meaning_eq_of_spares {x z : TypeStore} (h : Extends x z) (hx : x.Ordered)
    (hz : z.Ordered) {t : TypeId} (ht : x.Has t)
    (hspares : ∀ id < x.variableCount, (∀ u, x.binding id ≠ .linked u) →
      ∀ u, z.binding id ≠ .linked u) : z.meaning t = x.meaning t := by
  let σ := z.completed fun id => .atom (.var id)
  have hσ : x.Allows σ := h.allows hx hz (hz.allows_completed _)
  calc z.meaning t = z.value σ t := hz.meaning_eq_value t
    _ = x.value σ t := hx.wellFormed.value_grows hz.wellFormed h.grows ht
    _ = (x.meaning t).subst σ := (hx.subst_meaning hσ t).symm
    _ = (x.meaning t).subst fun id => .atom (.var id) := by
        refine subst_congr fun id hid => completed_of_not_linked ?_
        obtain ⟨v, hv, -, -⟩ := hx.descends_of_mem_meaning hid
        exact hspares id (hx.wellFormed.var_lt hv) (hx.not_linked_of_mem_meaning hid)
    _ = x.meaning t := subst_self _

namespace Instantiates

variable {x y : TypeStore} {pattern : Tree} {n : Nat} {args : List TypeId} {e t : TypeId}

section Covering

variable (hs : x.Sound) (h : Instantiates x y pattern n args e) (hfixed : pattern.Fixed)
  (ht : x.Has t)

include hs h hfixed ht

/-- **Matching a pattern that covers a type** assigns no variable of before. -/
theorem unify_spares {others : List Tree} (hlen : others.length = n)
    (hcovers : pattern.Covers (x.meaning t) others) :
    ∀ id < x.variableCount, (∀ u, x.binding id ≠ .linked u) →
      ∀ u, ((unify e t).run y).2.binding id ≠ .linked u := by
  intro id hid hfree
  have hy : y.Sound := hs.quiet h.quiet
  have hty : y.Has t := h.quiet.has ht
  have hstill : ∀ u, y.binding id ≠ .linked u := fun u hb => by
    obtain ⟨v, hv, -⟩ := h.quiet.keeps.linked_cases hb
    exact hfree v hv
  by_cases hc : y.Clean e ∧ y.Clean t
  · have hfill : pattern.fill others = x.meaning t := by
      have hpe := (hy.clean_iff e).mp hc.1
      have hpt := (hy.clean_iff t).mp hc.2
      rw [h.meaning_eq hfixed, withVars_proper] at hpe
      rw [h.quiet.meaning_eq ht, proper_iff] at hpt
      exact (hcovers.resolve_left hpt.1).resolve_left hpe.1
    -- the variables of before stand for themselves, the new ones for the arguments
    let κ := y.completed (choosing x.variableCount (fun id => .atom (.var id)) others)
    obtain ⟨hpattern, htree⟩ :=
      h.subst_choosing hfixed ht (σ := fun id => .atom (.var id)) hlen
    have honeWay : OneWay x y κ [⟨e, t, .whole⟩] :=
      { sound := hy
        grows := h.quiet.grows
        inside := fun hi hb => by
          obtain ⟨u, hu, rfl | rfl⟩ := h.quiet.keeps.linked_cases hb
          · exact hs.wellFormed.linked_has hu
          · exact hs.ordered.has_root (hs.wellFormed.linked_has hu)
        idle := fun hi hfree => (completed_of_not_linked hfree).trans (if_pos hi)
        allows := hy.ordered.allows_completed _
        posed := by simpa using ⟨h.reads.1, hty⟩
        clean := by simpa using hc
        right := by simpa using ht
        solves := by
          simp only [Solves, List.mem_singleton, forall_eq, κ, hy.ordered.value_completed]
          rw [hpattern, htree, hfill, subst_self] }
    exact honeWay.solving_spares hs.wellFormed (hy.ordered.unify_solving h.reads.1 hty) hid hstill
  · obtain ⟨hshort, -⟩ := hy.unify_of_not_clean h.reads.1 hty hc
    intro u hb
    obtain ⟨v, hv, -⟩ := hshort.keeps.linked_cases hb
    exact hstill v hv

/-- **A pattern that matched without an assignment** to a variable of before covers the
type, with the arguments that were found. -/
theorem covers_of_spares (hok : ((unify e t).run y).1 = .ok ())
    (hspares : ∀ id < x.variableCount, (∀ u, x.binding id ≠ .linked u) →
      ∀ u, ((unify e t).run y).2.binding id ≠ .linked u) :
    pattern.Covers (x.meaning t) (args.map ((unify e t).run y).2.meaning) := by
  have hy : y.Sound := hs.quiet h.quiet
  have hty : y.Has t := h.quiet.has ht
  obtain ⟨hz, hbinds⟩ := hy.unify_sound h.reads.1 hty
  obtain ⟨z, hrun⟩ : ∃ z, ((unify e t).run y).2 = z := ⟨_, rfl⟩
  have hvalue := fun σ hea heb => hy.value_eq_after_unify (σ := σ) h.reads.1 hty hok hea heb
  rw [hrun] at hz hbinds hspares hvalue ⊢
  by_cases he : (x.meaning t).HasError
  · exact .inl he
  by_cases he' : pattern.HasError
  · exact .inr (.inl he')
  have hequal : z.meaning e = z.meaning t := by
    apply hz.ordered.meaning_eq_of_value_eq
    intro σ hσ
    rw [value_congr hbinds.entries]
    exact (hvalue σ (by rwa [h.meaning_eq hfixed, withVars_hasError])
      (by rwa [h.quiet.meaning_eq ht]) hσ).2
  have hextends : Extends x z := (h.quiet.keeps.toExtends h.quiet.start h.quiet.finish).trans
    hbinds.toExtends h.quiet.start h.quiet.finish hz.ordered
  refine .inr (.inr ?_)
  rw [← hz.ordered.meaning_withVars hfixed (hbinds.node_eq ▸ h.nodes)
    ((congrFun (written_congr hbinds.entries) e).trans h.reads.2), hequal]
  exact hextends.meaning_eq_of_spares hs.ordered hz.ordered ht hspares

/-- **What covering means.**  A pattern that matches covers the type exactly when the
match assigns no variable of before. -/
theorem covers_iff (hok : ((unify e t).run y).1 = .ok ()) :
    (∃ others : List Tree, others.length = n ∧ pattern.Covers (x.meaning t) others) ↔
      ∀ id < x.variableCount, (∀ u, x.binding id ≠ .linked u) →
        ∀ u, ((unify e t).run y).2.binding id ≠ .linked u := by
  constructor
  · rintro ⟨others, hlen, hcovers⟩
    exact h.unify_spares hs hfixed ht hlen hcovers
  · intro hspares
    exact ⟨_, by rw [List.length_map, h.length],
      h.covers_of_spares hs hfixed ht hok hspares⟩

end Covering

end Instantiates

end TypeStore

end DotCall
