import DotCall.Call.Coercion
import DotCall.Proofs.CoveringPatterns

/-!
# What a type is coerced to

A rule is matched under a checkpoint, so what it makes of a type has to be read
off before the assignments are taken back; the target is expanded for that
reason.  On trees: the target of a rule is its right side with the most general
arguments that suit the left side, and the first rule that applies decides.

Dereferencing and unsizing depend on a type only up to the names of its
variables (`DerefsTo.variant`, `UnsizesTo.variant`), whichever variables were
made for the parameters of the rules.
-/

namespace DotCall

open TypeStore DotCall.Tree

/-- The head of a tree. -/
def Tree.head? : Tree → Option Head
  | .atom a => a.head?
  | .app f _ => some f.head

/-- The head that a store computes for a type is that of its meaning. -/
theorem TypeStore.Ordered.head?_eq {s : TypeStore} (h : s.Ordered) (t : TypeId) :
    s.head? t = (s.meaning t).head? := by
  unfold TypeStore.head?
  cases hn : s.node (s.root t) with
  | atom a => rw [meaning_of_atom hn]; rfl
  | app f args => rw [h.meaning_of_app hn]; rfl

/-- Substitution keeps a head. -/
theorem Tree.head?_subst {t : Tree} {σ : Assignment} (h : t.head? ≠ none) :
    (t.subst σ).head? = t.head? := by
  cases t with
  | atom a =>
      cases a with
      | var id => exact absurd rfl h
      | _ => rfl
  | app f ts => rw [subst_app]; rfl

/-- Filling in arguments keeps a head. -/
theorem Tree.head?_fill {t : Tree} (h : t.head? ≠ none) (args : List Tree) :
    (t.fill args).head? = t.head? := by
  cases t with
  | atom a =>
      cases a with
      | param position => exact absurd rfl h
      | _ => rfl
  | app f ts => rw [fill_app]; rfl

/-- Variants have the same head. -/
theorem Tree.Variant.head?_eq {t u : Tree} (h : t.Variant u) : t.head? = u.head? := by
  obtain ⟨⟨σ, hσ⟩, τ, hτ⟩ := h
  by_cases ht : t.head? = none
  · by_cases hu : u.head? = none
    · rw [ht, hu]
    · rw [← hτ, head?_subst hu]
  · rw [← hσ, head?_subst ht]

namespace Rule

/-- Both sides of the rule are types of the store in which no variable is
written. -/
structure Closed (rule : Rule) (s : TypeStore) : Prop where
  source_has : s.Has rule.source
  target_has : s.Has rule.target
  source_fixed : (s.written rule.source).Fixed
  target_fixed : (s.written rule.target).Fixed

/-- The source of the rule has the head of the tree and matches it. -/
def Applies (rule : Rule) (s : TypeStore) (tree : Tree) : Prop :=
  tree.head? ≠ none ∧ (s.written rule.source).head? = tree.head? ∧
    (s.written rule.source).Matches rule.arity tree

/-- The source of the rule covers the tree, so that the rule matches without an
assignment to a variable of the tree. -/
def Covers (rule : Rule) (s : TypeStore) (tree : Tree) : Prop :=
  ∃ args : List Tree, args.length = rule.arity ∧ (s.written rule.source).Covers tree args

/-- What the rule makes of the tree: its target with most general arguments, in
which no error and no parameter occurs.  From a tree that is covered the arguments
are taken as they are. -/
def Yields (rule : Rule) (s : TypeStore) (tree result : Tree) : Prop :=
  ∃ args : List Tree, args.length = rule.arity ∧ (∀ arg ∈ args, arg.Proper) ∧
    MostGeneral ((s.written rule.source).Suits tree) args ∧
    (rule.Covers s tree → (s.written rule.source).Covers tree args) ∧
    result = (s.written rule.target).fill args

variable {rule : Rule} {s x : TypeStore} {t : TypeId} {tree tree' result result' : Tree}

theorem Closed.quiet (h : rule.Closed s) (hq : Quiet s x) : rule.Closed x where
  source_has := hq.has h.source_has
  target_has := hq.has h.target_has
  source_fixed := hq.written_eq h.source_has ▸ h.source_fixed
  target_fixed := hq.written_eq h.target_has ▸ h.target_fixed

/-- A rule that applies to a type applies to its variants. -/
theorem Applies.variant (h : rule.Applies s tree) (hrule : rule.Closed s)
    (hv : tree.Variant tree') : rule.Applies s tree' :=
  ⟨hv.head?_eq ▸ h.1, hv.head?_eq ▸ h.2.1, hv.matching hrule.source_fixed h.2.2⟩

/-- What a rule yields for variants are variants. -/
theorem Yields.variant (h : rule.Yields s tree result) (h' : rule.Yields s tree' result')
    (hrule : rule.Closed s) (hv : tree.Variant tree') : result.Variant result' := by
  obtain ⟨args, hlen, -, hargs, -, rfl⟩ := h
  obtain ⟨args', hlen', -, hargs', -, rfl⟩ := h'
  exact (hargs.of_variant hv).variant hargs' (hlen.trans hlen'.symm) hrule.target_fixed

end Rule

/-- From before the variables of an instance were made to after they were assigned. -/
theorem TypeStore.Instantiates.extends_run {x y z u : TypeStore} {pattern : Tree} {n : Nat}
    {args : List TypeId} {e : TypeId} (hi : Instantiates x y pattern n args e) (hbinds : Binds y z)
    (hq : Quiet z u) : Extends x u :=
  ((hi.quiet.keeps.toExtends hi.quiet.start hi.quiet.finish).trans hbinds.toExtends
    hi.quiet.start hi.quiet.finish hq.start).trans
    (hq.keeps.toExtends hq.start hq.finish) hi.quiet.start hq.start hq.finish

/-- A second pattern, instantiated with the arguments of the first after these were
assigned, is the pattern filled with the variables. -/
theorem TypeStore.Instantiates.instantiate_reads {x y z : TypeStore} {pattern : Tree} {n : Nat}
    {args : List TypeId} {e : TypeId} (hi : Instantiates x y pattern n args e) (hbinds : Binds y z)
    (hz : z.Ordered) {target : TypeId} (htarget : x.Has target) :
    let u := (instantiate target args).run z
    Quiet z u.2 ∧ u.2.Reads ((x.written target).withVars x.variableCount n) u.1 ∧
      args.map u.2.node = (List.range' x.variableCount n).map fun id => .atom (.var id) := by
  intro u
  have hhas : ∀ a ∈ args, z.Has a := fun a ha => hbinds.has_iff.mpr (hi.has_args a ha)
  have hwritten : z.written target = x.written target := by
    rw [written_congr hbinds.entries, hi.quiet.written_eq htarget]
  obtain ⟨hq, hu⟩ := hz.instantiate_run hhas (hbinds.has_iff.mpr (hi.quiet.has htarget))
  have hnodes : args.map u.2.node =
      (List.range' x.variableCount n).map fun id => .atom (.var id) := by
    rw [← hi.nodes, ← hbinds.node_eq]
    exact List.map_congr_left fun a ha => hq.node_eq (hhas a ha)
  refine ⟨hq, ⟨hu.1, ?_⟩, hnodes⟩
  rw [hu.2, hwritten, withVars]
  refine congrArg (fill · _) (map_eq_map_of_imp hi.nodes fun a id hn => ?_)
  exact WellFormed.written_of_atom (hbinds.node_eq ▸ hn)

/-- If no variable is written in it, it means the pattern filled with what the variables
mean. -/
theorem TypeStore.Instantiates.instantiate_run {x y z : TypeStore} {pattern : Tree} {n : Nat}
    {args : List TypeId} {e : TypeId} (hi : Instantiates x y pattern n args e) (hbinds : Binds y z)
    (hz : z.Ordered) {target : TypeId} (htarget : x.Has target)
    (hfixed : (x.written target).Fixed) :
    let u := (instantiate target args).run z
    Quiet z u.2 ∧ u.2.Has u.1 ∧ u.2.meaning u.1 = (x.written target).fill (args.map z.meaning) := by
  intro u
  obtain ⟨hq, hreads, hnodes⟩ := hi.instantiate_reads hbinds hz htarget
  refine ⟨hq, hreads.1, ?_⟩
  rw [hq.finish.meaning_withVars hfixed hnodes hreads.2]
  refine congrArg (fill · _) (List.map_congr_left fun a ha => hq.meaning_eq ?_)
  exact hbinds.has_iff.mpr (hi.has_args a ha)

/-- What is assigned to the variables of an instance is clean. -/
theorem TypeStore.Instantiates.proper_args {x y z : TypeStore} {pattern : Tree} {n : Nat}
    {args : List TypeId} {e : TypeId} (hi : Instantiates x y pattern n args e) (hbinds : Binds y z)
    (hz : z.Sound) : ∀ a ∈ args, (z.meaning a).Proper := by
  intro a ha
  have hmem : y.node a ∈ args.map y.node := List.mem_map_of_mem ha
  rw [hi.nodes] at hmem
  obtain ⟨id, -, hn⟩ := List.mem_map.mp hmem
  have hsummary : z.summary a = (Atom.var id).summary := by
    rw [hz.wellFormed.summary_node, hbinds.node_eq, ← hn]
    rfl
  rw [← hz.clean_iff, Clean, hsummary]
  exact ⟨rfl, rfl⟩

namespace Rule

variable {rule : Rule} {x : TypeStore} {t : TypeId}

/-- Match the rule and keep the assignments. -/
def matched? (rule : Rule) (t : TypeId) : StateM TypeStore (Option TypeId) := do
  let args ← newVars rule.arity
  let source ← instantiate rule.source args
  if ← unifies source t then
    let target ← instantiate rule.target args
    let target ← expand target
    pure (some target)
  else pure none

/-- Matching a rule, one step after the other: fresh variables, an instance of the source,
unification, and the expanded target when that succeeds. -/
theorem matched?_run {y : TypeStore} {args : List TypeId × TypeStore} {e : TypeId × TypeStore}
    {z : Except Clash Unit × TypeStore} (hargs : (newVars rule.arity).run y = args)
    (he : (instantiate rule.source args.1).run args.2 = e) (hz : (unify e.1 t).run e.2 = z) :
    (rule.matched? t).run y = if z.1 = .ok () then
      (some <$> (instantiate rule.target args.1 >>= expand)).run z.2 else (none, z.2) := by
  simp only [matched?, run_bind, hargs, he, unifies_run, hz]
  by_cases hok : z.1 = .ok () <;> simp only [hok, decide_true, decide_false, if_true, if_false] <;> rfl

/-- What the expanded target means stays what it means when the assignments are
taken back: its variables were not assigned. -/
theorem meaning_of_reverts {m s' : TypeStore} (hw : Extends x.opened m)
    (hq : Quiet x s') {u : TypeId}
    (hu : ∀ id, .var id ∈ (s'.written u).atoms → ∀ w, m.binding id ≠ .linked w) :
    s'.meaning u = s'.written u := by
  apply hq.finish.meaning_eq_written
  intro id hid w hb
  obtain ⟨v, hv, -⟩ := hq.keeps.linked_cases hb
  have hopened : x.opened.binding id = .linked v := hv
  obtain ⟨v', hv', -⟩ := hw.linked hopened
  exact hu id hid v' hv'

/-- **Trying a rule** assigns nothing.  If the source unifies with the type, the answer is
expanded and means what the target means before the assignments are taken back, and the
types made on the way are still there; if not, there is no answer. -/
theorem target?_cases (hs : x.Sound) (hsource : x.Has rule.source) (htarget : x.Has rule.target)
    (hfixed : (x.written rule.source).Fixed) (ht : x.Has t)
    (hplain : (x.written rule.source).Scoped rule.arity ∨ x.Plain t)
    {args : List TypeId × TypeStore} {e : TypeId × TypeStore} {z : Except Clash Unit × TypeStore}
    (hargs : (newVars rule.arity).run x.opened = args)
    (he : (instantiate rule.source args.1).run args.2 = e) (hunify : (unify e.1 t).run e.2 = z) :
    let u := (instantiate rule.target args.1).run z.2
    let r := (rule.target? t).run x
    Quiet x r.2 ∧ (z.1 ≠ .ok () → r.1 = none) ∧
      (z.1 = .ok () → ∃ v, r.1 = some v ∧ r.2.Has v ∧ r.2.written v = r.2.meaning v ∧
        r.2.meaning v = u.2.meaning u.1 ∧ ∀ {a}, u.2.Has a → r.2.node a = u.2.node a) := by
  intro u r
  obtain ⟨hi, hworks, hz, hbinds, -, -⟩ := hs.unify_instance hsource hfixed ht hplain
  have hrun := matched?_run hargs he hunify
  simp only [hargs, he, hunify] at hi hworks hz hbinds
  by_cases hok : z.1 = .ok ()
  · obtain ⟨hq₁, hu, -⟩ := hi.instantiate_reads hbinds hz.ordered htarget
    obtain ⟨v, hvrun⟩ : ∃ v, (expand u.1).run u.2 = v := ⟨_, rfl⟩
    obtain ⟨hq₂, hv⟩ := hq₁.finish.expand_run hu.1
    rw [hvrun] at hq₂ hv
    have hlast : (some <$> (instantiate rule.target args.1 >>= expand)).run z.2 =
        (some v.1, v.2) := by
      rw [← hvrun]
      rfl
    rw [if_pos hok, hlast] at hrun
    have hmatched : Works x.opened ((rule.matched? t).run x.opened).2 := by
      rw [hrun]
      exact hworks.trans (hq₁.toWorks.trans hq₂.toWorks)
    obtain ⟨hanswer, hq⟩ := tentatively_quiet hs.ordered hmatched
    have hentries := tentatively_entries (rule.matched? t) x
    rw [hrun] at hanswer hentries
    have hwritten : r.2.written v.1 = u.2.meaning u.1 := by
      rw [← hv.2]
      exact congrFun (written_congr hentries) _
    have hplain' : r.2.meaning v.1 = r.2.written v.1 := by
      apply meaning_of_reverts (hi.extends_run hbinds hq₁) hq
      intro id hid
      exact hq₁.finish.not_linked_of_mem_meaning (hwritten ▸ hid)
    refine ⟨hq, fun hne => absurd hok hne, fun _ => ?_⟩
    refine ⟨v.1, hanswer, (has_congr hentries).mpr hv.1, hplain'.symm, hplain'.trans hwritten, ?_⟩
    intro a ha
    rw [← hq₂.node_eq ha]
    exact congrFun (node_congr hentries) a
  · rw [if_neg hok] at hrun
    have hmatched : Works x.opened ((rule.matched? t).run x.opened).2 := by rw [hrun]; exact hworks
    obtain ⟨hanswer, hq⟩ := tentatively_quiet hs.ordered hmatched
    rw [hrun] at hanswer
    exact ⟨hq, fun _ => hanswer, fun h => absurd h hok⟩

/-- **The target of a rule.**  It exists exactly when the source matches; it is
written as it is meant, and it is what the rule makes of the type. -/
theorem target?_run (hs : x.Sound) (hrule : rule.Closed x) (ht : x.Has t)
    (hplain : (x.written rule.source).Scoped rule.arity ∨ x.Plain t) :
    let r := (rule.target? t).run x
    Quiet x r.2 ∧
      ((r.1 = none ∧ ¬ (x.written rule.source).Matches rule.arity (x.meaning t)) ∨
        ∃ u, r.1 = some u ∧ (x.written rule.source).Matches rule.arity (x.meaning t) ∧
          r.2.Has u ∧ r.2.written u = r.2.meaning u ∧
          rule.Yields x (x.meaning t) (r.2.meaning u)) := by
  intro r
  obtain ⟨hi, -, hz, hbinds, hiff, hgeneral⟩ :=
    hs.unify_instance hrule.source_has hrule.source_fixed ht hplain
  obtain ⟨args, hargs⟩ : ∃ args, (newVars rule.arity).run x.opened = args := ⟨_, rfl⟩
  obtain ⟨e, he⟩ : ∃ e, (instantiate rule.source args.1).run args.2 = e := ⟨_, rfl⟩
  obtain ⟨z, hunify⟩ : ∃ z, (unify e.1 t).run e.2 = z := ⟨_, rfl⟩
  obtain ⟨hq, hnone, hsome⟩ := target?_cases hs hrule.source_has hrule.target_has
    hrule.source_fixed ht hplain hargs he hunify
  simp only [hargs, he, hunify] at hi hz hbinds hiff hgeneral
  by_cases hok : z.1 = .ok ()
  · obtain ⟨v, hanswer, hhas, hwritten, hresult, -⟩ := hsome hok
    obtain ⟨-, -, hmeaning⟩ :=
      hi.instantiate_run hbinds hz.ordered hrule.target_has (by
        rw [opened_written]
        exact hrule.target_fixed)
    rw [opened_written] at hmeaning
    refine ⟨hq, .inr ⟨v, hanswer, hiff.mp hok, hhas, hwritten, ?_⟩⟩
    refine ⟨_, by rw [List.length_map, hi.length], ?_, hgeneral hok, ?_, ?_⟩
    · exact List.forall_mem_map.mpr (hi.proper_args hbinds hz)
    · intro hcovers
      have hok' : ((unify e.1 t).run e.2).1 = .ok () := by rw [hunify, hok]
      rw [← hunify, ← opened_meaning (s := x) t]
      rw [Covers, ← opened_meaning (s := x) t,
        hi.covers_iff hs.opened hrule.source_fixed ht hok'] at hcovers
      exact hi.covers_of_spares hs.opened hrule.source_fixed ht hok' hcovers
    · rw [hresult, hmeaning]
  · exact ⟨hq, .inl ⟨hnone hok, fun hm => hok (hiff.mpr hm)⟩⟩

end Rule

open Classical in
/-- What the first rule that applies makes of the tree; nothing when none does. -/
def Converts (rules : List Rule) (s : TypeStore) (tree : Tree) (result? : Option Tree) : Prop :=
  match rules.find? fun rule => decide (rule.Applies s tree) with
  | none => result? = none
  | some rule => ∃ result, result? = some result ∧ rule.Yields s tree result

section Rules

variable {rules : List Rule} {s x : TypeStore} {t : TypeId} {tree tree' : Tree}
  {result? result?' : Option Tree}

theorem converts_nil : Converts [] s tree none := rfl

/-- The first rule that applies decides. -/
theorem converts_cons_of_applies {rule : Rule} {result : Tree} (h : rule.Applies s tree)
    (hresult : rule.Yields s tree result) : Converts (rule :: rules) s tree (some result) := by
  unfold Converts
  rw [List.find?_cons_of_pos (by simpa using h)]
  exact ⟨result, rfl, hresult⟩

/-- A rule that does not apply is passed over. -/
theorem converts_cons_of_not_applies {rule : Rule} (h : ¬ rule.Applies s tree)
    (hrest : Converts rules s tree result?) : Converts (rule :: rules) s tree result? := by
  unfold Converts at hrest ⊢
  rwa [List.find?_cons_of_neg (by simpa using h)]

/-- Variants are converted to variants, or not at all. -/
theorem Converts.variant (h : Converts rules s tree result?) (h' : Converts rules s tree' result?')
    (hrules : ∀ rule ∈ rules, rule.Closed s) (hv : tree.Variant tree') :
    Option.Rel Variant result? result?' := by
  induction rules with
  | nil =>
      obtain rfl : result? = none := h
      obtain rfl : result?' = none := h'
      exact .none
  | cons rule rules ih =>
      have hrule : rule.Closed s := hrules rule List.mem_cons_self
      unfold Converts at h h' ih
      by_cases happ : rule.Applies s tree
      · have happ' : rule.Applies s tree' := happ.variant hrule hv
        rw [List.find?_cons_of_pos (by simpa using happ)] at h
        rw [List.find?_cons_of_pos (by simpa using happ')] at h'
        obtain ⟨result, rfl, hresult⟩ := h
        obtain ⟨result', rfl, hresult'⟩ := h'
        exact .some (hresult.variant hresult' hrule hv)
      · have happ' : ¬ rule.Applies s tree' := fun h => happ (h.variant hrule hv.symm)
        rw [List.find?_cons_of_neg (by simpa using happ)] at h
        rw [List.find?_cons_of_neg (by simpa using happ')] at h'
        exact ih h h' fun rule' hrule' => hrules rule' (List.mem_cons_of_mem _ hrule')

/-- The type is one of the store and is written as it is meant. -/
def TypeStore.Expanded (s : TypeStore) (t : TypeId) : Prop := s.Has t ∧ s.written t = s.meaning t

theorem TypeStore.Plain.quiet (h : s.Plain t) (ht : s.Has t) (hq : Quiet s x) : x.Plain t := by
  intro hparam
  rw [hq.meaning_eq ht] at hparam ⊢
  rw [hq.written_eq ht, h hparam]

theorem TypeStore.Expanded.plain (h : s.Expanded t) : s.Plain t := fun _ => h.2

/-- An expanded type stays expanded under quiet work. -/
theorem TypeStore.Expanded.quiet (h : s.Expanded t) (hq : Quiet s x) : x.Expanded t :=
  ⟨hq.has h.1, by rw [hq.written_eq h.1, hq.meaning_eq h.1, h.2]⟩

/-- Try one rule on a type with the given head. -/
def Rule.targetUnder? (head : Head) (t : TypeId) (rule : Rule) :
    StateM TypeStore (Option TypeId) := do
  if (← get).head? rule.source = some head then rule.target? t else pure none

/-- A source in which no variable is written has the head that is written. -/
theorem Rule.head?_source {rule : Rule} (hx : Quiet s x) (hsource : s.Has rule.source)
    (hfixed : (s.written rule.source).Fixed) :
    x.head? rule.source = (s.written rule.source).head? := by
  have hwritten := hx.written_eq hsource
  rw [hx.finish.head?_eq, hx.finish.meaning_eq_written, hwritten]
  rw [hwritten]
  exact fun id hid => absurd hid (hfixed id)

/-- **Trying one rule**, by the head of the type: it gives a type for what the rule
yields, or nothing where the rule does not apply, and is quiet. -/
theorem Rule.targetUnder?_run {rule : Rule} (hs : s.Sound) (hrule : rule.Closed s)
    (hx : Quiet s x) (ht : x.Has t) {head : Head} (hhead : (x.meaning t).head? = some head)
    (hplain : (s.written rule.source).Scoped rule.arity ∨ x.Plain t) :
    let r := (rule.targetUnder? head t).run x
    Quiet x r.2 ∧ ((r.1 = none ∧ ¬ rule.Applies s (x.meaning t)) ∨
      ∃ u, r.1 = some u ∧ rule.Applies s (x.meaning t) ∧ r.2.Expanded u ∧
        rule.Yields s (x.meaning t) (r.2.meaning u)) := by
  intro r
  have hwritten := hx.written_eq hrule.source_has
  have hsource := Rule.head?_source hx hrule.source_has hrule.source_fixed
  by_cases hsame : x.head? rule.source = some head
  · have hrun : r = (rule.target? t).run x := by
      simp only [r, Rule.targetUnder?, run_bind, run_get, hsame, if_true]
    obtain ⟨hq, hcase⟩ := target?_run (hs.quiet hx) (hrule.quiet hx) ht (hwritten ▸ hplain)
    rw [← hrun] at hq hcase
    rw [hwritten] at hcase
    refine ⟨hq, hcase.imp (fun h => ⟨h.1, fun happ => h.2 happ.2.2⟩) ?_⟩
    intro hex
    obtain ⟨u, hu, hmatch, hhas, hplain', args, hlen, hproper, hgeneral, hcovers, hresult⟩ := hex
    rw [hwritten] at hgeneral
    rw [Covers, hwritten] at hcovers
    rw [hx.written_eq hrule.target_has] at hresult
    refine ⟨u, hu, ⟨by simp [hhead], ?_, hmatch⟩, ⟨hhas, hplain'⟩,
      args, hlen, hproper, hgeneral, hcovers, hresult⟩
    rw [← hsource, hsame, hhead]
  · have hrun : r = (none, x) := by
      simp only [r, Rule.targetUnder?, run_bind, run_get, hsame, if_false]
      rfl
    rw [hrun]
    refine ⟨.refl hx.finish, .inl ⟨rfl, fun happ => hsame ?_⟩⟩
    rw [hsource, happ.2.1, hhead]

/-- **Trying rules in turn** is quiet and finds what the first that applies gives. -/
theorem tryRules_run (hs : s.Sound) (hrules : ∀ rule ∈ rules, rule.Closed s) (hx : Quiet s x)
    (ht : x.Has t) {head : Head} (hhead : (x.meaning t).head? = some head)
    (hplain : (∀ rule ∈ rules, (s.written rule.source).Scoped rule.arity) ∨ x.Plain t) :
    let r := (rules.findSomeM? (Rule.targetUnder? head t)).run x
    Quiet x r.2 ∧ Converts rules s (x.meaning t) (r.1.map r.2.meaning) ∧
      ∀ u, r.1 = some u → r.2.Expanded u := by
  induction rules generalizing x with
  | nil => exact ⟨.refl hx.finish, converts_nil, fun _ h => by cases h⟩
  | cons rule rules ih =>
      obtain ⟨hq, hcase⟩ := Rule.targetUnder?_run hs (hrules rule List.mem_cons_self) hx ht hhead
        (hplain.imp_left fun h => h rule List.mem_cons_self)
      obtain ⟨first, hfirst⟩ : ∃ first, (rule.targetUnder? head t).run x = first := ⟨_, rfl⟩
      rw [hfirst] at hq hcase
      rw [List.findSomeM?_cons, run_bind, hfirst]
      rcases hcase with ⟨hnone, hnot⟩ | ⟨u, hsome, happ, hexpanded, hyields⟩
      · rw [hnone]
        have hmeaning := hq.meaning_eq ht
        obtain ⟨hq', hconverts, hall⟩ := ih (fun rule' h => hrules rule' (List.mem_cons_of_mem _ h))
          (hx.trans hq) (hq.has ht) (hmeaning ▸ hhead)
          (hplain.imp (fun h rule' h' => h rule' (List.mem_cons_of_mem _ h')) (·.quiet ht hq))
        rw [hmeaning] at hconverts
        exact ⟨hq.trans hq', converts_cons_of_not_applies hnot hconverts, hall⟩
      · rw [hsome]
        refine ⟨hq, converts_cons_of_applies happ hyields, fun v hv => ?_⟩
        cases hv
        exact hexpanded

/-- **Trying rules in order** gives a type for what the first rule that applies yields,
and is quiet. -/
theorem firstTarget?_run (hs : s.Sound) (hrules : ∀ rule ∈ rules, rule.Closed s) (hx : Quiet s x)
    (ht : x.Has t)
    (hplain : (∀ rule ∈ rules, (s.written rule.source).Scoped rule.arity) ∨ x.Plain t) :
    let r := (Rule.firstTarget? rules t).run x
    Quiet x r.2 ∧ Converts rules s (x.meaning t) (r.1.map r.2.meaning) ∧
      ∀ u, r.1 = some u → r.2.Expanded u := by
  intro r
  cases hhead : x.head? t with
  | none =>
      have hrun : r = (none, x) := by
        simp only [r, Rule.firstTarget?, run_bind, run_get, hhead]
        rfl
      rw [hx.finish.head?_eq] at hhead
      have hnone : Converts rules s (x.meaning t) none := by
        unfold Converts
        rw [List.find?_eq_none.mpr fun rule _ => by simp [Rule.Applies, hhead]]
      rw [hrun]
      exact ⟨.refl hx.finish, hnone, fun _ h => by cases h⟩
  | some head =>
      have hrun : r = (rules.findSomeM? (Rule.targetUnder? head t)).run x := by
        simp only [r, Rule.firstTarget?, run_bind, run_get, hhead]
        rfl
      rw [hx.finish.head?_eq] at hhead
      rw [hrun]
      exact tryRules_run hs hrules hx ht hhead hplain

end Rules

namespace TypeStore.Ordered

variable {s : TypeStore} {t : TypeId} {f : Former} {args : List TypeId}

/-- The parts of a compound type that is written as it is meant are so, too. -/
theorem written_eq_meaning_of_part (h : s.Ordered) (hn : s.node (s.root t) = .app f args)
    (hw : s.written t = s.meaning t) : ∀ a ∈ args, s.written a = s.meaning a := by
  rw [h.meaning_of_app hn] at hw
  cases hl : s.link? t with
  | some p =>
      rw [WellFormed.written_of_atom (link?_eq_some.mp hl).1] at hw
      cases hw
  | none =>
      rw [root_of_no_link hl] at hn
      rw [h.wellFormed.written_of_app hn] at hw
      exact List.map_inj_left.mp (Tree.app.inj hw).2

/-- A part of a plain type is plain. -/
theorem plain_part (h : s.Ordered) (hn : s.node (s.root t) = .app f args) (hp : s.Plain t) {a : TypeId}
    (ha : a ∈ args) : s.Plain a := by
  intro hparam
  obtain ⟨x, hx, hx'⟩ := hparam
  refine h.written_eq_meaning_of_part hn (hp ⟨x, ?_, hx'⟩) a ha
  rw [h.meaning_of_app hn]
  exact mem_atoms_app.mpr ⟨_, List.mem_map_of_mem ha, hx⟩

/-- A compound meaning shows in the root. -/
theorem exists_node_of_meaning (h : s.Ordered) {tree : Tree} {trees : List Tree}
    (hm : s.meaning t = .app f (tree :: trees)) : ∃ a rest, s.node (s.root t) = .app f (a :: rest) := by
  cases hn : s.node (s.root t) with
  | atom a => simp [meaning_of_atom hn] at hm
  | app g args =>
      rw [h.meaning_of_app hn] at hm
      obtain ⟨rfl, hargs⟩ := Tree.app.inj hm
      cases args with
      | nil => simp at hargs
      | cons a rest => exact ⟨a, rest, rfl⟩

/-- The root of a plain type is plain. -/
theorem plain_root (h : s.Ordered) (hp : s.Plain t) : s.Plain (s.root t) := by
  cases hl : s.link? t with
  | none => rwa [root_of_no_link hl]
  | some p =>
      intro hparam
      rw [h.meaning_root] at hparam
      have hw := hp hparam
      rw [WellFormed.written_of_atom (link?_eq_some.mp hl).1] at hw
      rw [← hw] at hparam
      obtain ⟨a, ha, position, rfl⟩ := hparam
      simp at ha

end TypeStore.Ordered

namespace TypeStore

/-- A type `u` of `y` that comes of a type `t` of `x` is plain and expanded where
`t` is. -/
structure Follows (x y : TypeStore) (t u : TypeId) : Prop where
  has : y.Has u
  plain : x.Plain t → y.Plain u
  expanded : x.Expanded t → y.Expanded u

variable {x y : TypeStore} {t u : TypeId} {f : Former}

/-- An expanded type follows any. -/
theorem Follows.of_expanded (h : y.Expanded u) : Follows x y t u :=
  ⟨h.1, fun _ => h.plain, fun _ => h⟩

/-- A type of the store from before follows itself. -/
theorem Follows.of_quiet (hq : Quiet x y) (ht : x.Has t) : Follows x y t t :=
  ⟨hq.has ht, fun hp => hp.quiet ht hq, fun he => he.quiet hq⟩

/-- A part of a type follows it. -/
theorem Ordered.follows_part (h : x.Ordered) {args : List TypeId}
    (hn : x.node (x.root t) = .app f args) {a : TypeId} (ha : a ∈ args) : Follows x x t a := by
  have hhas : x.Has a := h.wellFormed.has_arg (t := x.root t) (by simpa [hn, Node.args] using ha)
  refine ⟨hhas, fun hp => h.plain_part hn hp ha, fun he => ⟨hhas, ?_⟩⟩
  exact h.written_eq_meaning_of_part hn he.2 a ha

theorem Follows.trans {z : TypeStore} {v : TypeId} (h : Follows x y t u) (h' : Follows y z u v) :
    Follows x z t v :=
  ⟨h'.has, fun hp => h'.plain (h.plain hp), fun he => h'.expanded (h.expanded he)⟩

/-- A former put around a type. -/
theorem Quiet.wrapped (hq : Quiet x y) (ht : x.Has t) (hu : y.Has u)
    (hnode : y.node u = .app f [t]) :
    y.meaning u = .app f [x.meaning t] ∧ Follows x y t u := by
  have hmeaning : y.meaning u = .app f [x.meaning t] := by
    rw [hq.finish.meaning_of_app (root_of_no_link (link?_of_app hnode) ▸ hnode)]
    simp [hq.meaning_eq ht]
  have hwritten : y.written u = .app f [x.written t] := by
    rw [hq.finish.wellFormed.written_of_app hnode]
    simp [hq.written_eq ht]
  refine ⟨hmeaning, hu, fun hp hparam => ?_, fun he => ⟨hu, ?_⟩⟩
  · rw [hmeaning] at hparam ⊢
    obtain ⟨a, ha, hbad⟩ := hparam
    rw [hwritten, hp ⟨a, by simpa using ha, hbad⟩]
  · rw [hmeaning, hwritten, he.2]

end TypeStore

namespace Declarations

/-- The declared types are types of the store, and no variable is written in the
self types of impls and in rules. -/
structure Closed (d : Declarations) (s : TypeStore) : Prop where
  self : ∀ {id decl}, d.impl? id = some decl → s.Has decl.self ∧ (s.written decl.self).Fixed
  condition : ∀ {id decl}, d.impl? id = some decl → ∀ c ∈ decl.conditions, s.Has c.ty
  deref : ∀ rule ∈ d.derefs, rule.Closed s
  unsizing : ∀ rule ∈ d.unsizings, rule.Closed s

/-- The self types of impls and the sources of rules mention only parameters of
their own. -/
structure Scoped (d : Declarations) (s : TypeStore) : Prop where
  self : ∀ {id decl}, d.impl? id = some decl → (s.written decl.self).Scoped decl.arity
  deref : ∀ rule ∈ d.derefs, (s.written rule.source).Scoped rule.arity
  unsizing : ∀ rule ∈ d.unsizings, (s.written rule.source).Scoped rule.arity

/-- What a tree dereferences to. -/
def DerefsTo (d : Declarations) (s : TypeStore) : Tree → Option Tree → Prop
  | .app (.ref _) (pointee :: _), result? => result? = some pointee
  | tree, result? => Converts d.derefs s tree result?

/-- What a tree unsizes to. -/
def UnsizesTo (d : Declarations) (s : TypeStore) : Tree → Option Tree → Prop
  | .app (.array _) (elem :: _), result? => result? = some (.app .slice [elem])
  | tree, result? => Converts d.unsizings s tree result?

variable {d : Declarations} {s x : TypeStore} {t : TypeId} {tree tree' : Tree}
  {result? result?' : Option Tree}

/-- Except for borrows, the rules alone say what a type dereferences to. -/
theorem derefsTo_of_not_ref (h : ∀ b pointee rest, tree ≠ .app (.ref b) (pointee :: rest)) :
    d.DerefsTo s tree result? ↔ Converts d.derefs s tree result? := by
  unfold DerefsTo
  split
  · exact absurd rfl (h _ _ _)
  · rfl

/-- Except for arrays, the rules alone say what a type unsizes to. -/
theorem unsizesTo_of_not_array (h : ∀ n elem rest, tree ≠ .app (.array n) (elem :: rest)) :
    d.UnsizesTo s tree result? ↔ Converts d.unsizings s tree result? := by
  unfold UnsizesTo
  split
  · exact absurd rfl (h _ _ _)
  · rfl

end Declarations

/-- A variant of a compound tree is compound. -/
theorem Tree.Variant.exists_app {t : Tree} {f : Former} {u : Tree} {us : List Tree}
    (h : t.Variant (.app f (u :: us))) :
    ∃ v vs, t = .app f (v :: vs) ∧ v.Variant u := by
  obtain ⟨-, τ, hτ⟩ := id h
  rw [subst_app] at hτ
  subst hτ
  obtain ⟨-, hparts⟩ := h.part
  rw [List.map_cons] at hparts ⊢
  exact ⟨_, _, rfl, (List.forall₂_cons.mp hparts).1⟩

namespace Declarations

variable {d : Declarations} {s x : TypeStore} {t : TypeId} {tree tree' : Tree}
  {result? result?' : Option Tree}

/-- Variants dereference to variants, or not at all. -/
theorem DerefsTo.variant (h : d.DerefsTo s tree result?) (h' : d.DerefsTo s tree' result?')
    (hd : d.Closed s) (hv : tree.Variant tree') : Option.Rel Variant result? result?' := by
  by_cases href : ∃ b pointee rest, tree = .app (.ref b) (pointee :: rest)
  · obtain ⟨b, pointee, rest, rfl⟩ := href
    obtain ⟨pointee', rest', rfl, hpointee⟩ := hv.symm.exists_app
    obtain rfl : result? = some pointee := h
    obtain rfl : result?' = some pointee' := h'
    exact .some hpointee.symm
  · have href' : ¬ ∃ b pointee rest, tree' = .app (.ref b) (pointee :: rest) := by
      intro hex
      obtain ⟨b, pointee, rest, rfl⟩ := hex
      obtain ⟨pointee', rest', rfl, -⟩ := hv.exists_app
      exact href ⟨b, pointee', rest', rfl⟩
    rw [derefsTo_of_not_ref (by simpa using href)] at h
    rw [derefsTo_of_not_ref (by simpa using href')] at h'
    exact h.variant h' hd.deref hv

/-- Variants unsize to variants, or not at all. -/
theorem UnsizesTo.variant (h : d.UnsizesTo s tree result?) (h' : d.UnsizesTo s tree' result?')
    (hd : d.Closed s) (hv : tree.Variant tree') : Option.Rel Variant result? result?' := by
  by_cases harr : ∃ n elem rest, tree = .app (.array n) (elem :: rest)
  · obtain ⟨n, elem, rest, rfl⟩ := harr
    obtain ⟨elem', rest', rfl, helem⟩ := hv.symm.exists_app
    obtain rfl : result? = some (.app .slice [elem]) := h
    obtain rfl : result?' = some (.app .slice [elem']) := h'
    exact .some (helem.symm.wrap .slice)
  · have harr' : ¬ ∃ n elem rest, tree' = .app (.array n) (elem :: rest) := by
      intro hex
      obtain ⟨n, elem, rest, rfl⟩ := hex
      obtain ⟨elem', rest', rfl, -⟩ := hv.exists_app
      exact harr ⟨n, elem', rest', rfl⟩
    rw [unsizesTo_of_not_array (by simpa using harr)] at h
    rw [unsizesTo_of_not_array (by simpa using harr')] at h'
    exact h.variant h' hd.unsizing hv

/-- The declared rules are tried on the root of a type. -/
theorem firstTarget?_root_run (hs : s.Sound) {rules : List Rule}
    (hrules : ∀ rule ∈ rules, rule.Closed s) (hx : Quiet s x) (ht : x.Has t)
    (hplain : (∀ rule ∈ rules, (s.written rule.source).Scoped rule.arity) ∨ x.Plain t)
    {y : TypeStore} (hq : Quiet x y) :
    let r := (Rule.firstTarget? rules (x.root t)).run y
    Quiet x r.2 ∧ Converts rules s (x.meaning t) (r.1.map r.2.meaning) ∧
      ∀ u, r.1 = some u → Follows x r.2 t u := by
  intro r
  have hhas : x.Has (x.root t) := hx.finish.has_root ht
  obtain ⟨hq', hconverts, hall⟩ := firstTarget?_run hs hrules (hx.trans hq) (hq.has hhas)
    (hplain.imp_right fun hp => (hx.finish.plain_root hp).quiet hhas hq)
  rw [hq.meaning_eq hhas, hx.finish.meaning_root] at hconverts
  exact ⟨hq.trans hq', hconverts, fun u hu => .of_expanded (hall u hu)⟩

/-- A type other than a reference is dereferenced by the declared rules. -/
theorem deref?_eq_firstTarget? (hx : x.Ordered) (ht : x.Has t)
    (href : ∀ b pointee rest, x.node (x.root t) ≠ .app (.ref b) (pointee :: rest)) :
    ∃ y, Quiet x y ∧ (d.deref? t).run x = (Rule.firstTarget? d.derefs (x.root t)).run y := by
  obtain ⟨hroot, hq⟩ := hx.findRoot_quiet t
  refine ⟨_, hq, ?_⟩
  simp only [deref?, run_bind, run_get, hroot, hq.node_eq (hx.has_root ht)]

/-- A type other than an array is unsized by the declared rules. -/
theorem unsize?_eq_firstTarget? (hx : x.Ordered) (ht : x.Has t)
    (harr : ∀ n elem rest, x.node (x.root t) ≠ .app (.array n) (elem :: rest)) :
    ∃ y, Quiet x y ∧ (d.unsize? t).run x = (Rule.firstTarget? d.unsizings (x.root t)).run y := by
  obtain ⟨hroot, hq⟩ := hx.findRoot_quiet t
  refine ⟨_, hq, ?_⟩
  simp only [unsize?, run_bind, run_get, hroot, hq.node_eq (hx.has_root ht)]

/-- **Dereferencing** is quiet; the result is told by what the type means. -/
theorem deref?_run (hs : s.Sound) (hd : d.Closed s) (hx : Quiet s x) (ht : x.Has t)
    (hplain : d.Scoped s ∨ x.Plain t) :
    let r := (d.deref? t).run x
    Quiet x r.2 ∧ d.DerefsTo s (x.meaning t) (r.1.map r.2.meaning) ∧
      ∀ u, r.1 = some u → Follows x r.2 t u := by
  intro r
  obtain ⟨hroot, hq⟩ := hx.finish.findRoot_quiet t
  obtain ⟨y, hy⟩ : ∃ y, ((findRoot t).run x).2 = y := ⟨_, rfl⟩
  rw [hy] at hq
  have hhas : x.Has (x.root t) := hx.finish.has_root ht
  by_cases href : ∃ b pointee rest, x.node (x.root t) = .app (.ref b) (pointee :: rest)
  · obtain ⟨b, pointee, rest, hn⟩ := href
    have hrun : r = (some pointee, y) := by
      simp only [r, deref?, run_bind, run_get, hroot, hy, hq.node_eq hhas, hn]
      rfl
    have hpart : Follows x x t pointee := hx.finish.follows_part hn List.mem_cons_self
    rw [hrun]
    refine ⟨hq, ?_, ?_⟩
    · rw [hx.finish.meaning_of_app hn, List.map_cons]
      exact congrArg some (hq.meaning_eq hpart.has)
    · intro u hex
      cases hex
      exact hpart.trans (.of_quiet hq hpart.has)
  · obtain ⟨z, hz, hrun⟩ := deref?_eq_firstTarget? (d := d) hx.finish ht (by simpa using href)
    have hr : r = (Rule.firstTarget? d.derefs (x.root t)).run z := hrun
    rw [hr, derefsTo_of_not_ref]
    · exact firstTarget?_root_run hs hd.deref hx ht (hplain.imp_left (·.deref)) hz
    · intro b pointee rest hm
      exact href ⟨b, hx.finish.exists_node_of_meaning hm⟩

/-- **Unsizing** is quiet; the result is told by what the type means. -/
theorem unsize?_run (hs : s.Sound) (hd : d.Closed s) (hx : Quiet s x) (ht : x.Has t)
    (hplain : d.Scoped s ∨ x.Plain t) :
    let r := (d.unsize? t).run x
    Quiet x r.2 ∧ d.UnsizesTo s (x.meaning t) (r.1.map r.2.meaning) ∧
      ∀ u, r.1 = some u → Follows x r.2 t u := by
  intro r
  obtain ⟨hroot, hq⟩ := hx.finish.findRoot_quiet t
  obtain ⟨y, hy⟩ : ∃ y, ((findRoot t).run x).2 = y := ⟨_, rfl⟩
  rw [hy] at hq
  have hhas : x.Has (x.root t) := hx.finish.has_root ht
  by_cases harr : ∃ n elem rest, x.node (x.root t) = .app (.array n) (elem :: rest)
  · obtain ⟨n, elem, rest, hn⟩ := harr
    have hpart : Follows x x t elem := hx.finish.follows_part hn List.mem_cons_self
    obtain ⟨hq', -, hslice, hnode⟩ := hq.finish.sliceOf_quiet (hq.has hpart.has)
    obtain ⟨z, hz⟩ : ∃ z, (sliceOf elem).run y = z := ⟨_, rfl⟩
    rw [hz] at hq' hslice hnode
    have hrun : r = (some z.1, z.2) := by
      simp only [r, unsize?, run_bind, run_get, hroot, hy, hq.node_eq hhas, hn, hz]
      rfl
    obtain ⟨hmeaning, hfollows⟩ := (hq.trans hq').wrapped hpart.has hslice hnode
    rw [hrun]
    refine ⟨hq.trans hq', ?_, ?_⟩
    · rw [hx.finish.meaning_of_app hn, List.map_cons]
      exact congrArg some hmeaning
    · intro u hex
      cases hex
      exact hpart.trans hfollows
  · obtain ⟨z, hz, hrun⟩ := unsize?_eq_firstTarget? (d := d) hx.finish ht (by simpa using harr)
    have hr : r = (Rule.firstTarget? d.unsizings (x.root t)).run z := hrun
    rw [hr, unsizesTo_of_not_array]
    · exact firstTarget?_root_run hs hd.unsizing hx ht (hplain.imp_left (·.unsizing)) hz
    · intro n elem rest hm
      exact harr ⟨n, hx.finish.exists_node_of_meaning hm⟩

end Declarations

end DotCall
