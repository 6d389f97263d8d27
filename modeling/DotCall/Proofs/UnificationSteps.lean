import DotCall.Proofs.RootFinding

/-!
# Unification step by step

Unification works off a list of equations: it looks at the outermost layers of
the first one, drops it, links a variable, puts the equations of the arguments
in its place, or fails.  `Solving` describes such a run without a bound on the
depth.

The bounded loops of the store do run to their end (`unify_solving`): on the way
down every type passed is an argument of the one before, read through links, and
linking only ever adds to what lies above a type.  So the number of types bounds
the depth even though links are made on the way.
-/

namespace DotCall

/-- The outermost layers differ, whatever the variables stand for. -/
def Node.Apart : Node → Node → Prop
  | .atom x, .atom y => x ≠ y ∧ (∀ id, x ≠ .var id) ∧ ∀ id, y ≠ .var id
  | .app f left, .app g right => f ≠ g ∨ left.length ≠ right.length
  | .atom x, .app _ _ => ∀ id, x ≠ .var id
  | .app _ _, .atom y => ∀ id, y ≠ .var id

namespace Node

/-- Nodes are apart in either order. -/
theorem Apart.symm {m n : Node} (h : Apart m n) : Apart n m := by
  cases m <;> cases n
  · exact ⟨h.1.symm, h.2.2, h.2.1⟩
  · exact h
  · exact h
  · exact h.imp Ne.symm Ne.symm

/-- An atom that is no variable is apart from every other node but a variable. -/
theorem apart_of_atom {x : Atom} {n : Node} (hx : ∀ id, x ≠ .var id)
    (hn : ∀ id, n ≠ .atom (.var id)) (hne : n ≠ .atom x) : Apart (.atom x) n := by
  cases n with
  | atom y => exact ⟨fun heq => hne (heq ▸ rfl), hx, fun id hy => hn id (hy ▸ rfl)⟩
  | app f args => exact hx

end Node

namespace TypeStore

/-- Nothing but bindings was changed, and links were only added or shortened. -/
structure Binds (s s' : TypeStore) : Prop where
  entries : s'.entries = s.entries
  handles : s'.handles = s.handles
  count : s'.variableCount = s.variableCount
  toExtends : Extends s s'
  logged : Logged s s'

namespace Binds

variable {s s' s'' : TypeStore} {t : TypeId}

theorem refl (s : TypeStore) : Binds s s := ⟨rfl, rfl, rfl, .refl s, .refl s⟩

/-- To shorten links is to bind nothing new. -/
theorem of_shortens (h : Shortens s s') (hs : s.Ordered) : Binds s s' :=
  ⟨h.entries, h.handles, h.count, h.keeps.toExtends hs (h.ordered hs), h.logged⟩

/-- Binding twice is binding. -/
theorem trans (h : Binds s s') (h' : Binds s' s'') (hs : s.Ordered) (hs' : s'.Ordered)
    (hs'' : s''.Ordered) : Binds s s'' where
  entries := h'.entries.trans h.entries
  handles := h'.handles.trans h.handles
  count := h'.count.trans h.count
  toExtends := h.toExtends.trans h'.toExtends hs hs' hs''
  logged := h.logged.trans h'.logged h.toExtends.grows h'.toExtends.grows

theorem node_eq (h : Binds s s') : s'.node = s.node := node_congr h.entries

theorem size_eq (h : Binds s s') : s'.size = s.size := by simp [size, h.entries]

theorem has_iff (h : Binds s s') : s'.Has t ↔ s.Has t := by simp [Has, h.size_eq]

end Binds

/-- One of the two types is the variable `id`, and `t` is the other one. -/
def Faces (s : TypeStore) (a b : TypeId) (id : Nat) (t : TypeId) : Prop :=
  (s.node a = .atom (.var id) ∧ t = b) ∨ (s.node b = .atom (.var id) ∧ t = a)

/-- What the comparison of two types without a link at the top rests on. -/
inductive Compared (s : TypeStore) (a b : TypeId) : Comparison → Prop where
  | same (h : a = b) : Compared s a b .equal
  | error (hne : a ≠ b) (h : (s.summary a).hasError = true ∨ (s.summary b).hasError = true) :
      Compared s a b .equal
  | param {c : Clash} (hne : a ≠ b)
      (herr : (s.summary a).hasError = false ∧ (s.summary b).hasError = false)
      (h : (s.summary a).hasParam = true ∨ (s.summary b).hasParam = true) :
      Compared s a b (.clash c)
  | infinite {c : Clash} {id : Nat} {t : TypeId} (hne : a ≠ b) (hf : s.Faces a b id t)
      (h : s.occurs id t = true) : Compared s a b (.clash c)
  | rigid {c : Clash} {id : Nat} {t : TypeId} {name : Symbol} (hne : a ≠ b)
      (hf : s.Faces a b id t) (h : s.binding id = .generic name) : Compared s a b (.clash c)
  | apart {c : Clash} (h : Node.Apart (s.node a) (s.node b)) : Compared s a b (.clash c)
  | assign {id i : Nat} {name : Option Symbol} {t : TypeId} (hne : a ≠ b)
      (herr : (s.summary a).hasError = false ∧ (s.summary b).hasError = false)
      (hparam : (s.summary a).hasParam = false ∧ (s.summary b).hasParam = false)
      (hf : s.Faces a b id t) (hocc : s.occurs id t = false)
      (hfree : s.binding id = .free i name) : Compared s a b (.assign id t)
  | parts {f : Former} {left right : List TypeId} (hne : a ≠ b)
      (herr : (s.summary a).hasError = false ∧ (s.summary b).hasError = false)
      (hparam : (s.summary a).hasParam = false ∧ (s.summary b).hasParam = false)
      (ha : s.node a = .app f left) (hb : s.node b = .app f right)
      (hlen : left.length = right.length) :
      Compared s a b (.parts (argEquations f left right))

section Compare

variable {s : TypeStore} {a b : TypeId}

/-- Comparing a variable that is not linked with another type: the occurs check refuses, a
generic parameter clashes, and any other variable is assigned. -/
theorem compareVar_compared {id : Nat} {t : TypeId} {position : Position} (hne : a ≠ b)
    (herr : (s.summary a).hasError = false ∧ (s.summary b).hasError = false)
    (hparam : (s.summary a).hasParam = false ∧ (s.summary b).hasParam = false)
    (hf : s.Faces a b id t) (hfree : ∀ u, s.binding id ≠ .linked u) :
    Compared s a b (s.compareVar id t position) := by
  unfold compareVar
  split
  · next hocc => exact .infinite hne hf hocc
  · next hocc =>
      cases hb : s.binding id with
      | free i name => exact .assign hne herr hparam hf (by simpa using hocc) hb
      | linked u => exact absurd hb (hfree u)
      | generic name => exact .rigid hne hf hb

/-- Comparing two types that are no variables: they clash, or their arguments are left to
be compared. -/
theorem compareLayers_compared {position : Position} (hne : a ≠ b) (hs : s.WellFormed)
    (hha : s.Has a) (hhb : s.Has b)
    (herr : (s.summary a).hasError = false ∧ (s.summary b).hasError = false)
    (hparam : (s.summary a).hasParam = false ∧ (s.summary b).hasParam = false)
    (hva : ∀ id, s.node a ≠ .atom (.var id)) (hvb : ∀ id, s.node b ≠ .atom (.var id)) :
    Compared s a b (s.compareLayers a b position) := by
  cases ha : s.node a with
  | atom x =>
      cases hb : s.node b with
      | atom y =>
          have hxy : x ≠ y := fun heq =>
            hne (hs.node_injective hha hhb (by rw [ha, hb, heq]))
          simp only [compareLayers, ha, hb, hxy, if_false]
          refine .apart ?_
          rw [ha, hb]
          exact ⟨hxy, fun id hx => hva id (hx ▸ ha), fun id hy => hvb id (hy ▸ hb)⟩
      | app g right =>
          simp only [compareLayers, ha, hb]
          refine .apart ?_
          rw [ha, hb]
          exact fun id hx => hva id (hx ▸ ha)
  | app f left =>
      cases hb : s.node b with
      | atom y =>
          simp only [compareLayers, ha, hb]
          refine .apart ?_
          rw [ha, hb]
          exact fun id hy => hvb id (hy ▸ hb)
      | app g right =>
          simp only [compareLayers, ha, hb]
          split
          · next hfg =>
              subst hfg
              split
              · next hlen => exact .parts hne herr hparam ha hb hlen
              · next hlen => exact .apart (by rw [ha, hb]; exact .inr hlen)
          · next hfg =>
              split <;> exact .apart (by rw [ha, hb]; exact .inl hfg)

/-- **Comparison.**  Every outcome of a comparison has its reason. -/
theorem Ordered.compare_compared (h : s.Ordered) {position : Position} (hha : s.Has a)
    (hhb : s.Has b) (hla : s.link? a = none) (hlb : s.link? b = none) :
    Compared s a b (s.compare a b position) := by
  by_cases hne : a = b
  · simp only [compare, hne, if_true]
    exact .same rfl
  by_cases herr : (s.summary a).hasError = true ∨ (s.summary b).hasError = true
  · simp only [compare, hne, if_false, Bool.or_eq_true, herr, if_true]
    exact .error hne herr
  have herr' : (s.summary a).hasError = false ∧ (s.summary b).hasError = false := by
    simpa [not_or] using herr
  by_cases hparam : (s.summary a).hasParam = true ∨ (s.summary b).hasParam = true
  · have hclash : ∃ c, s.compare a b position = .clash c := by
      by_cases hpa : (s.summary a).hasParam = true
      · exact ⟨.leftoverParam a, by simp [compare, hne, herr'.1, herr'.2, hpa]⟩
      · have hpb := hparam.resolve_left hpa
        exact ⟨.leftoverParam b, by simp [compare, hne, herr'.1, herr'.2, hpa, hpb]⟩
    obtain ⟨c, hc⟩ := hclash
    rw [hc]
    exact .param hne herr' hparam
  have hparam' : (s.summary a).hasParam = false ∧ (s.summary b).hasParam = false := by
    simpa [not_or] using hparam
  have hfree : ∀ {t id}, s.link? t = none → s.node t = .atom (.var id) →
      ∀ u, s.binding id ≠ .linked u := fun hl hn u => link?_eq_none.mp hl _ u hn
  have hnodes : s.node a ≠ s.node b := fun heq =>
    hne (h.wellFormed.node_injective hha hhb heq)
  simp only [compare, hne, herr'.1, herr'.2, hparam'.1, hparam'.2, Bool.or_self,
    Bool.false_eq_true, ↓reduceIte]
  split
  · next id hn => exact compareVar_compared hne herr' hparam' (.inl ⟨hn, rfl⟩) (hfree hla hn)
  · next id hn _ =>
      exact compareVar_compared hne herr' hparam' (.inr ⟨hn, rfl⟩) (hfree hlb hn)
  · next i j hi hj =>
      refine .apart (hi ▸ Node.apart_of_atom (by simp) (by simp [hj]) ?_)
      exact fun heq => hnodes (hi.trans heq.symm)
  · next i hi hvar _ =>
      refine .apart (hi ▸ Node.apart_of_atom (by simp) hvar ?_)
      exact fun heq => hnodes (hi.trans heq.symm)
  · next i hi hvar _ =>
      refine .apart (Node.Apart.symm (hi ▸ Node.apart_of_atom (by simp) hvar ?_))
      exact fun heq => hnodes (heq.trans hi.symm)
  · next hva _ hvb _ _ =>
      exact compareLayers_compared hne h.wellFormed hha hhb herr' hparam' hva hvb

end Compare

/-- Both sides of an equation are types of the store. -/
def Poses (s : TypeStore) (e : Equation) : Prop := s.Has e.left ∧ s.Has e.right

/-- The equations of the arguments are between arguments. -/
theorem mem_argEquations {f : Former} {left right : List TypeId} {e : Equation}
    (he : e ∈ argEquations f left right) : e.left ∈ left ∧ e.right ∈ right := by
  simp only [argEquations, List.mem_map] at he
  obtain ⟨⟨⟨l, r⟩, i⟩, hmem, rfl⟩ := he
  have hzip : (l, r) ∈ left.zip right := List.fst_mem_of_mem_zipIdx hmem
  exact ⟨(List.of_mem_zip hzip).1, (List.of_mem_zip hzip).2⟩

/-- The equations of the arguments hold exactly when the arguments agree one by
one. -/
theorem forall_argEquations {α : Type} {f : Former} {left right : List TypeId}
    (hlen : left.length = right.length) (val : TypeId → α) :
    (∀ e ∈ argEquations f left right, val e.left = val e.right) ↔
      left.map val = right.map val := by
  have hzip : ∀ k, (∀ p ∈ (left.zip right).zipIdx k, val p.1.1 = val p.1.2) ↔
      left.map val = right.map val := by
    induction left generalizing right with
    | nil => cases right <;> simp at hlen ⊢
    | cons l left ih =>
        cases right with
        | nil => simp at hlen
        | cons r right =>
            intro k
            simp only [List.zip_cons_cons, List.zipIdx_cons, List.forall_mem_cons,
              ih (by simpa using hlen) (k + 1), List.map_cons, List.cons.injEq]
  rw [← hzip 0]
  simp only [argEquations, List.forall_mem_map]

/-- The outcome of looking at the outermost layers of an equation, and the
store afterwards. -/
def facing (s : TypeStore) (e : Equation) : Comparison × TypeStore :=
  let l := (findRoot e.left).run s
  let r := (findRoot e.right).run l.2
  (r.2.compare l.1 r.1 e.position, r.2)

/-- A run of unification over a list of equations, from one store to another. -/
inductive Solving : TypeStore → List Equation → Except Clash Unit → TypeStore → Prop where
  | done (s : TypeStore) : Solving s [] (.ok ()) s
  | same {s s' : TypeStore} {e : Equation} {rest : List Equation} {r : Except Clash Unit}
      (heq : e.left = e.right) (tail : Solving s rest r s') : Solving s (e :: rest) r s'
  | equal {s s₁ s' : TypeStore} {e : Equation} {rest : List Equation} {r : Except Clash Unit}
      (hne : e.left ≠ e.right) (hface : s.facing e = (.equal, s₁))
      (tail : Solving s₁ rest r s') : Solving s (e :: rest) r s'
  | clash {s s₁ : TypeStore} {e : Equation} {rest : List Equation} {c : Clash}
      (hne : e.left ≠ e.right) (hface : s.facing e = (.clash c, s₁)) :
      Solving s (e :: rest) (.error c) s₁
  | assign {s s₁ s' : TypeStore} {e : Equation} {rest : List Equation}
      {r : Except Clash Unit} {id : Nat} {t : TypeId}
      (hne : e.left ≠ e.right) (hface : s.facing e = (.assign id t, s₁))
      (tail : Solving (s₁.assigned id (.linked t)) rest r s') : Solving s (e :: rest) r s'
  | parts {s s₁ s' : TypeStore} {e : Equation} {rest equations : List Equation}
      {r : Except Clash Unit}
      (hne : e.left ≠ e.right) (hface : s.facing e = (.parts equations, s₁))
      (tail : Solving s₁ (equations ++ rest) r s') : Solving s (e :: rest) r s'

/-- A run is determined by where it starts. -/
theorem Solving.deterministic {s s₁ s₂ : TypeStore} {equations : List Equation}
    {r₁ r₂ : Except Clash Unit} (h₁ : Solving s equations r₁ s₁)
    (h₂ : Solving s equations r₂ s₂) : r₁ = r₂ ∧ s₁ = s₂ := by
  induction h₁ with
  | done s => cases h₂; exact ⟨rfl, rfl⟩
  | same heq tail ih =>
      cases h₂ with
      | same _ tail' => exact ih tail'
      | equal hne | clash hne | assign hne | parts hne => exact absurd heq hne
  | equal hne hface tail ih =>
      cases h₂ with
      | same heq => exact absurd heq hne
      | equal _ hface' tail' => cases hface.symm.trans hface'; exact ih tail'
      | clash _ hface' | assign _ hface' | parts _ hface' => cases hface.symm.trans hface'
  | clash hne hface =>
      cases h₂ with
      | same heq => exact absurd heq hne
      | clash _ hface' => cases hface.symm.trans hface'; exact ⟨rfl, rfl⟩
      | equal _ hface' | assign _ hface' | parts _ hface' => cases hface.symm.trans hface'
  | assign hne hface tail ih =>
      cases h₂ with
      | same heq => exact absurd heq hne
      | assign _ hface' tail' => cases hface.symm.trans hface'; exact ih tail'
      | equal _ hface' | clash _ hface' | parts _ hface' => cases hface.symm.trans hface'
  | parts hne hface tail ih =>
      cases h₂ with
      | same heq => exact absurd heq hne
      | parts _ hface' tail' => cases hface.symm.trans hface'; exact ih tail'
      | equal _ hface' | clash _ hface' | assign _ hface' => cases hface.symm.trans hface'

namespace Ordered

variable {s : TypeStore} {e : Equation}

/-- Looking at the outermost layers only shortens links, and compares the roots
of the two sides. -/
theorem facing_spec (h : s.Ordered) (he : s.Poses e) :
    Shortens s (s.facing e).2 ∧ (s.facing e).2.Ordered ∧
      Compared (s.facing e).2 (s.root e.left) (s.root e.right) (s.facing e).1 := by
  obtain ⟨hl, hsl⟩ := h.findRoot_run e.left
  have h₁ := hsl.ordered h
  obtain ⟨hr, hsr⟩ := h₁.findRoot_run e.right
  have h₂ := hsr.ordered h₁
  have hroot : ((findRoot e.left).run s).2.root e.right = s.root e.right :=
    hsl.keeps.root_eq h h₁ he.2
  have hshort := hsl.trans hsr h
  refine ⟨hshort, h₂, ?_⟩
  simp only [facing, hl, hr, hroot]
  have hkeep : ∀ t, s.Has t → ((findRoot e.right).run ((findRoot e.left).run s).2).2.link?
      (s.root t) = none := fun t ht =>
    hshort.keeps.link?_none (h.has_root ht) (h.link?_root t)
  exact h₂.compare_compared (hshort.has_iff.mpr (h.has_root he.1))
    (hshort.has_iff.mpr (h.has_root he.2)) (hkeep _ he.1) (hkeep _ he.2)

/-- Where a comparison says so, the variable can be linked. -/
theorem linkable_of_compared (h : s.Ordered) {a b t : TypeId} {id : Nat}
    (hcmp : Compared s a b (.assign id t)) (ha : s.Has a) (hb : s.Has b) : Linkable s id t := by
  cases hcmp with
  | @assign _ i name _ hne herr hparam hf hocc hfree =>
      have hnot : ∀ u, s.binding id ≠ .linked u := by simp [hfree]
      refine ⟨?_, hnot, ?_, ?_⟩
      · rcases hf with ⟨hn, -⟩ | ⟨hn, -⟩
        · exact h.wellFormed.var_lt hn
        · exact h.wellFormed.var_lt hn
      · rcases hf with ⟨-, rfl⟩ | ⟨-, rfl⟩
        · exact hb
        · exact ha
      · rw [← h.occurs_iff hnot, hocc]
        simp

/-- Making the assignment that a comparison asks for binds a variable and leaves a store
in order. -/
theorem assign_spec (h : s.Ordered) {a b t : TypeId} {id : Nat}
    (hcmp : Compared s a b (.assign id t)) (ha : s.Has a) (hb : s.Has b) :
    (s.assigned id (.linked t)).Ordered ∧ Binds s (s.assigned id (.linked t)) := by
  have hlink := h.linkable_of_compared hcmp ha hb
  cases hcmp with
  | assign hne herr hparam hf hocc hfree =>
      exact ⟨h.link hlink, rfl, rfl, assigned_count, hlink.toExtends (by simp [hfree]),
        assigned_logged hlink.lt⟩

end Ordered

/-- The equations of the arguments are about types of the store. -/
theorem WellFormed.poses_of_parts {s : TypeStore} (h : s.WellFormed) {a b : TypeId}
    {equations : List Equation} (hcmp : Compared s a b (.parts equations)) :
    ∀ e ∈ equations, s.Poses e := by
  cases hcmp with
  | parts hne herr hparam ha hb hlen =>
      intro e he
      obtain ⟨hl, hr⟩ := mem_argEquations he
      exact ⟨h.has_arg (t := a) (by simpa [ha, Node.args] using hl),
        h.has_arg (t := b) (by simpa [hb, Node.args] using hr)⟩

namespace Ordered

variable {s : TypeStore} {e : Equation}

/-- Every step of a run keeps the store in order and only adds links. -/
theorem solving_binds (h : s.Ordered) {equations : List Equation} {r : Except Clash Unit}
    {s' : TypeStore} (hrun : Solving s equations r s') (he : ∀ e ∈ equations, s.Poses e) :
    s'.Ordered ∧ Binds s s' := by
  induction hrun with
  | done s => exact ⟨h, .refl s⟩
  | same heq tail ih => exact ih h fun e' he' => he e' (List.mem_cons_of_mem _ he')
  | @equal s s₁ s' e rest r hne hface tail ih =>
      obtain ⟨hshort, h₁, -⟩ := h.facing_spec (he e List.mem_cons_self)
      rw [hface] at hshort h₁
      obtain ⟨h', hb⟩ := ih h₁ fun e' he' =>
        (he e' (List.mem_cons_of_mem _ he')).imp hshort.has_iff.mpr hshort.has_iff.mpr
      exact ⟨h', (Binds.of_shortens hshort h).trans hb h h₁ h'⟩
  | @clash s s₁ e rest c hne hface =>
      obtain ⟨hshort, h₁, -⟩ := h.facing_spec (he e List.mem_cons_self)
      rw [hface] at hshort h₁
      exact ⟨h₁, .of_shortens hshort h⟩
  | @assign s s₁ s' e rest r id t hne hface tail ih =>
      obtain ⟨hshort, h₁, hcmp⟩ := h.facing_spec (he e List.mem_cons_self)
      rw [hface] at hshort h₁ hcmp
      obtain ⟨h₂, hb⟩ := h₁.assign_spec hcmp
        (hshort.has_iff.mpr (h.has_root (he e List.mem_cons_self).1))
        (hshort.has_iff.mpr (h.has_root (he e List.mem_cons_self).2))
      have hb₁ := (Binds.of_shortens hshort h).trans hb h h₁ h₂
      obtain ⟨h', hb'⟩ := ih h₂ fun e' he' =>
        (he e' (List.mem_cons_of_mem _ he')).imp hb₁.has_iff.mpr hb₁.has_iff.mpr
      exact ⟨h', hb₁.trans hb' h h₂ h'⟩
  | @parts s s₁ s' e rest equations r hne hface tail ih =>
      obtain ⟨hshort, h₁, hcmp⟩ := h.facing_spec (he e List.mem_cons_self)
      rw [hface] at hshort h₁ hcmp
      obtain ⟨h', hb⟩ := ih h₁ fun e' he' => by
        rcases List.mem_append.mp he' with he' | he'
        · exact h₁.wellFormed.poses_of_parts hcmp e' he'
        · exact (he e' (List.mem_cons_of_mem _ he')).imp hshort.has_iff.mpr hshort.has_iff.mpr
      exact ⟨h', (Binds.of_shortens hshort h).trans hb h h₁ h'⟩

end Ordered

/-- The types passed on the way down to `t`, the last one first: each is
compound and read, through links, at an argument of the one before. -/
def Path (s : TypeStore) : List TypeId → TypeId → Prop
  | [], _ => True
  | p :: path, t => t ∈ (s.node p).args ∧ ∃ u, s.Has u ∧ s.root u = p ∧ s.Path path u

/-- Linking does not shorten a way down. -/
theorem Path.extends {s s' : TypeStore} {path : List TypeId} {t : TypeId} (h : s.Path path t)
    (hx : Extends s s') (hs : s.Ordered) (hs' : s'.Ordered) : s'.Path path t := by
  induction path generalizing t with
  | nil => trivial
  | cons p path ih =>
      obtain ⟨ht, u, hu, hroot, hrest⟩ := h
      have hp : s.Has p := hroot ▸ hs.has_root hu
      refine ⟨by rwa [hx.grows.node_eq hp], u, hx.grows.has hu, ?_, ih hrest⟩
      cases hn : s.node p with
      | atom a => simp [hn, Node.args] at ht
      | app f args => rw [hx.root_of_app hs hs' hu (by rw [hroot, hn]), hroot]

/-- A way down is not longer than the number of types. -/
theorem Path.length_le {s : TypeStore} {path : List TypeId} {t : TypeId} (h : s.Path path t)
    (hs : s.Ordered) : path.length ≤ s.size := by
  obtain ⟨rank, hrank, hle, -⟩ := hs.exists_rank
  have hroot : ∀ u, rank (s.root u) ≤ rank u := by
    intro u
    induction u using hs.link_induction with
    | here u hl => rw [root_of_no_link hl]
    | link u id v hl ih =>
        rw [hs.root_of_link hl]
        exact Nat.le_trans ih (Nat.le_of_lt (hrank v u (.inr ⟨id, hl⟩)))
  suffices hsum : rank t + path.length ≤ s.size by omega
  induction path generalizing t with
  | nil => exact hle t
  | cons p path ih =>
      obtain ⟨ht, u, -, rfl, hrest⟩ := h
      have hlt := hrank t (s.root u) (.inl ht)
      have hle' := hroot u
      have hsum := ih hrest
      simp only [List.length_cons]
      omega

/-- The outcome of a part of a run: when it succeeds the rest follows, and when
it fails the whole fails. -/
def Leads (s : TypeStore) (equations : List Equation) (r : Except Clash Unit × TypeStore) :
    Prop :=
  match r.1 with
  | .ok () => ∀ rest r' s', Solving r.2 rest r' s' → Solving s (equations ++ rest) r' s'
  | .error c => ∀ rest, Solving s (equations ++ rest) (.error c) r.2

section Running

variable (n : Nat) (e : Equation) (s : TypeStore)

/-- Equal handles are unified without a look at them. -/
theorem unifyWithin_same (heq : e.left = e.right) :
    (unifyWithin (n + 1) e).run s = (.ok (), s) := by
  simp only [unifyWithin, heq, if_true]
  rfl

/-- One round of unification: the two types are faced with each other, and what the
comparison says is done. -/
theorem unifyWithin_run (hne : e.left ≠ e.right) :
    (unifyWithin (n + 1) e).run s =
      match (s.facing e).1 with
      | .equal => (.ok (), (s.facing e).2)
      | .clash c => (.error c, (s.facing e).2)
      | .assign id t => (.ok (), (s.facing e).2.assigned id (.linked t))
      | .parts equations => (unifyEach (unifyWithin n) equations).run (s.facing e).2 := by
  simp only [unifyWithin, hne, if_false, run_bind, run_get, facing]
  generalize compare _ _ _ _ = c
  cases c <;> rfl

/-- Equations are solved in order until one fails. -/
theorem unifyEach_cons (one : Equation → StateM TypeStore (Except Clash Unit))
    (rest : List Equation) :
    (unifyEach one (e :: rest)).run s =
      match ((one e).run s).1 with
      | .ok () => (unifyEach one rest).run ((one e).run s).2
      | .error c => (.error c, ((one e).run s).2) := by
  simp only [unifyEach, run_bind]
  cases ((one e).run s).1 <;> rfl

end Running

/-- A bounded search that suffices for each equation suffices for all of them:
what one solves does not make the others deeper. -/
theorem unifyEach_leads {n : Nat}
    (one : ∀ s : TypeStore, s.Ordered → ∀ e path, s.Poses e → s.Path path e.left →
      s.size < n + path.length → Leads s [e] ((unifyWithin n e).run s))
    {s : TypeStore} (h : s.Ordered) {equations : List Equation} {path : List TypeId}
    (he : ∀ e ∈ equations, s.Poses e ∧ s.Path path e.left)
    (hn : s.size < n + path.length) :
    Leads s equations ((unifyEach (unifyWithin n) equations).run s) := by
  induction equations generalizing s with
  | nil => exact fun rest r' s' hrest => hrest
  | cons e rest ih =>
      obtain ⟨hp, hpath⟩ := he e List.mem_cons_self
      have hfirst := one s h e path hp hpath hn
      rw [unifyEach_cons]
      unfold Leads at hfirst
      cases hr : ((unifyWithin n e).run s).1 with
      | error c =>
          simp only [hr] at hfirst
          exact fun rest' => hfirst (rest ++ rest')
      | ok _ =>
          simp only [hr] at hfirst
          have hrun := hfirst [] _ _ (.done _)
          obtain ⟨h₁, hb⟩ := h.solving_binds hrun fun e' he' => by
            obtain rfl : e' = e := by simpa using he'
            exact hp
          have hrest := ih h₁ (fun e' he' => ?_) (hb.size_eq ▸ hn)
          · unfold Leads at hrest ⊢
            split at hrest
            · next hok =>
                simp only [hok]
                intro rest' r' s' htail
                exact hfirst _ _ _ (hrest _ _ _ htail)
            · next c herror =>
                simp only [herror]
                intro rest'
                exact hfirst _ _ _ (hrest rest')
          · obtain ⟨hp', hpath'⟩ := he e' (List.mem_cons_of_mem _ he')
            exact ⟨hp'.imp hb.has_iff.mpr hb.has_iff.mpr, hpath'.extends hb.toExtends h h₁⟩

/-- **The bound suffices.**  A bounded search runs to its end when the bound and
the length of the way down so far exceed the number of types. -/
theorem unifyWithin_leads {n : Nat} {s : TypeStore} (h : s.Ordered) {e : Equation}
    {path : List TypeId} (he : s.Poses e) (hpath : s.Path path e.left)
    (hn : s.size < n + path.length) : Leads s [e] ((unifyWithin n e).run s) := by
  induction n generalizing s e path with
  | zero =>
      have hle := hpath.length_le h
      omega
  | succ n ih =>
      by_cases heq : e.left = e.right
      · rw [unifyWithin_same n e s heq]
        exact fun rest r' s' tail => .same heq tail
      · rw [unifyWithin_run n e s heq]
        obtain ⟨hshort, h₁, hcmp⟩ := h.facing_spec he
        rcases hface : s.facing e with ⟨c, s₁⟩
        simp only [hface] at hshort h₁ hcmp ⊢
        cases c with
        | equal => exact fun rest r' s' tail => .equal heq hface tail
        | clash c => exact fun rest => .clash heq hface
        | assign id t => exact fun rest r' s' tail => .assign heq hface tail
        | parts equations =>
            -- the arguments are one step further down, below the root of the left side
            have hdown : ∀ e' ∈ equations,
                s₁.Poses e' ∧ s₁.Path (s.root e.left :: path) e'.left := by
              intro e' he'
              refine ⟨h₁.wellFormed.poses_of_parts hcmp e' he', ?_, e.left, ?_, ?_, ?_⟩
              · cases hcmp with
                | parts hne herr hparam ha hb hlen =>
                    simpa [ha, Node.args] using (mem_argEquations he').1
              · exact hshort.has_iff.mpr he.1
              · exact hshort.keeps.root_eq h h₁ he.1
              · exact hpath.extends (hshort.keeps.toExtends h h₁) h h₁
            have hbound : s₁.size < n + (s.root e.left :: path).length := by
              rw [hshort.size_eq, List.length_cons]
              omega
            have hleads := unifyEach_leads (fun s hs e path he hp hlt => ih hs he hp hlt)
              h₁ hdown hbound
            unfold Leads at hleads ⊢
            split at hleads
            · next hok =>
                simp only [hok]
                exact fun rest r' s' tail => .parts heq hface (hleads rest r' s' tail)
            · next c herror =>
                simp only [herror]
                exact fun rest => .parts heq hface (hleads rest)

/-- **Unification runs to its end.**  What the store computes for an equation is
the outcome of a run. -/
theorem Ordered.solve_solving {s : TypeStore} (h : s.Ordered) {e : Equation} (he : s.Poses e) :
    Solving s [e] ((solve e).run s).1 ((solve e).run s).2 := by
  have hpath : s.Path [] e.left := trivial
  have hleads : Leads s [e] ((unifyWithin (s.size + 1) e).run s) :=
    unifyWithin_leads h he hpath (by simp)
  have hrun : (solve e).run s = (unifyWithin (s.size + 1) e).run s := rfl
  rw [hrun]
  unfold Leads at hleads
  split at hleads
  · next hok =>
      rw [hok]
      exact hleads [] _ _ (.done _)
  · next c herror =>
      rw [herror]
      exact hleads []

/-- Unifying two types is a run over the one equation between them, with the bound of the
store. -/
theorem Ordered.unify_solving {s : TypeStore} (h : s.Ordered) {a b : TypeId} (ha : s.Has a)
    (hb : s.Has b) :
    Solving s [⟨a, b, .whole⟩] ((unify a b).run s).1 ((unify a b).run s).2 :=
  h.solve_solving ⟨ha, hb⟩

/-- Whether two types unify is asked by unifying them. -/
theorem unifies_run (s : TypeStore) (a b : TypeId) : (unifies a b).run s =
    (decide (((unify a b).run s).1 = .ok ()), ((unify a b).run s).2) := by
  simp only [unifies, run_bind]
  cases ((unify a b).run s).1 <;> rfl

end TypeStore

end DotCall
