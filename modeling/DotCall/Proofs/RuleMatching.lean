import DotCall.Proofs.Commitments
import DotCall.Proofs.Derivability
import DotCall.Proofs.SharedTypes

/-!
# Rules as one-sided matching

A rule is tried by two-sided unification: variables are made for its parameters, the
source with these for the parameters is unified with the type, and the target is expanded
before the assignments are taken back.  For a type without variables nothing is left of the
second side.  A rule matches exactly if the type is an instance of its source
(`Rule.Takes`), and the arguments of the instance are put into the target.

The parameters that the source does not mention are the delicate part.  Their variables are
assigned by nothing (`Instantiates.binding_of_unify`), so each stays in the target as a
variable of its own, which is free when the assignments have been taken back.

The target may have variables of the store written in it; their links are followed as in
any expanded type (`TypeStore.followed`).
-/

namespace DotCall

open TypeStore DotCall.Tree

/-- Variables put for parameters are assigned together with the variables that were there:
the trees that they stand for can be filled in first, if the other assignment leaves these
as they are. -/
theorem Tree.subst_withVars_eq {t : Tree} {σ τ : Assignment} {first n : Nat}
    (hvars : ∀ id, .var id ∈ t.atoms → σ id = τ id)
    (hkept : ∀ a ∈ (List.range' first n).map σ, a.subst τ = a) :
    (t.withVars first n).subst σ = (t.fill ((List.range' first n).map σ)).subst τ := by
  unfold withVars
  induction t with
  | atom a =>
      cases a with
      | var id => simpa [fill] using hvars id (by simp)
      | param position =>
          rw [fill_param, fill_param]
          by_cases hlt : position < n
          · have hmem : σ (first + position) ∈ (List.range' first n).map σ :=
              List.mem_map_of_mem (List.mem_range'_1.mpr (by omega))
            simpa [hlt] using (hkept _ hmem).symm
          · simp [hlt, subst]
      | _ => rfl
  | app f ts ih =>
      simp only [fill_app, subst_app, List.map_map, Tree.app.injEq, true_and]
      refine List.map_congr_left fun t ht => ih t ht fun id hid => hvars id ?_
      exact mem_atoms_app.mpr ⟨t, ht, hid⟩

namespace TypeStore

/-- The tree with the links of its variables followed. -/
def followed (s : TypeStore) (t : Tree) : Tree := t.subst (s.completed fun id => .atom (.var id))

/-- A tree without earlier variables has no links to follow. -/
theorem followed_eq_self {s : TypeStore} {t : Tree}
    (h : ∀ id, .var id ∈ t.atoms → s.variableCount ≤ id) : s.followed t = t := by
  have hself : ∀ id, .var id ∈ t.atoms →
      s.completed (fun id => .atom (.var id)) id = .atom (.var id) := by
    intro id hid
    refine completed_of_not_linked fun u hb => ?_
    exact Nat.not_lt_of_le (h id hid) (lt_of_binding hb (by simp))
  rw [followed, subst_congr hself, subst_self]

/-- Where links were added but no variable of `x` was linked, the links of the variables of
`x` lead to the same. -/
theorem Extends.completed_eq_of_spares {x z : TypeStore} (h : Extends x z) (hx : x.Ordered)
    (hz : z.Ordered) (hspares : ∀ id < x.variableCount, (∀ u, x.binding id ≠ .linked u) →
      ∀ u, z.binding id ≠ .linked u) {id : Nat} (hid : id < x.variableCount) (σ : Assignment) :
    z.completed σ id = x.completed σ id := by
  by_cases hlinked : ∃ u, x.binding id = .linked u
  · obtain ⟨u, hu⟩ := hlinked
    obtain ⟨v, hv, hroot⟩ := h.linked hu
    have hmeaning : z.meaning v = x.meaning u := by
      rw [← hz.meaning_root, hroot, hz.meaning_root]
      exact h.meaning_eq_of_spares hx hz (hx.wellFormed.linked_has hu) hspares
    rw [completed_of_linked hu, completed_of_linked hv, hmeaning]
  · rw [not_exists] at hlinked
    rw [completed_of_not_linked hlinked, completed_of_not_linked (hspares id hid hlinked)]

theorem opened_completed {x : TypeStore} (σ : Assignment) :
    x.opened.completed σ = x.completed σ := by
  funext id
  have hbinding : x.opened.binding id = x.binding id := rfl
  simp only [completed, hbinding, opened_meaning]

/-- The links of earlier variables lead to the same after quiet work. -/
theorem Quiet.completed_eq {x z : TypeStore} (h : Quiet x z) {id : Nat} (hid : id < x.variableCount)
    (σ : Assignment) : z.completed σ id = x.completed σ id := by
  refine (h.keeps.toExtends h.start h.finish).completed_eq_of_spares h.start h.finish ?_ hid σ
  intro id hid hopen u hb
  exact hopen u ((h.keeps.binding_of_not_linked hid hopen).symm.trans hb)

/-- **What matching a type without variables assigns** are only variables that stand for
parameters of the pattern. -/
theorem Instantiates.binding_of_unify {x y : TypeStore} {pattern : Tree} {n : Nat}
    {args : List TypeId} {e t : TypeId} (h : Instantiates x y pattern n args e) (hs : x.Sound)
    (hfixed : pattern.Fixed) (ht : x.Has t) (htree : (x.meaning t).Fixed)
    (hok : ((unify e t).run y).1 = .ok ()) {id : Nat} (hid : id < y.variableCount)
    (hopen : ∀ u, y.binding id ≠ .linked u)
    (hnot : ∀ position < n, .param position ∈ pattern.atoms → id ≠ x.variableCount + position) :
    ((unify e t).run y).2.binding id = y.binding id := by
  refine (hs.quiet h.quiet).unify_spares h.reads.1 (h.quiet.has ht) hok hid hopen ?_ ?_
  · intro hmem
    rw [h.meaning_eq hfixed] at hmem
    obtain ⟨hmem, -⟩ | ⟨position, hlt, hp, heq⟩ := mem_atoms_withVars.mp hmem
    · exact hfixed id hmem
    · exact hnot position hlt hp (Atom.var.inj heq)
  · rw [h.quiet.meaning_eq ht]
    exact htree id

/-- A parameter that the pattern does not mention stays a variable of its own. -/
theorem Instantiates.meaning_absent {x y : TypeStore} {pattern : Tree} {n : Nat}
    {args : List TypeId} {e t : TypeId} (h : Instantiates x y pattern n args e) (hs : x.Sound)
    (hfixed : pattern.Fixed) (ht : x.Has t) (htree : (x.meaning t).Fixed)
    (hok : ((unify e t).run y).1 = .ok ()) {position : Nat} (hlt : position < n)
    (hnot : .param position ∉ pattern.atoms) :
    ∃ a, args[position]? = some a ∧ y.node a = .atom (.var (x.variableCount + position)) ∧
      ((unify e t).run y).2.meaning a = .atom (.var (x.variableCount + position)) := by
  have hget := congrArg (·[position]?) h.nodes
  simp only [List.getElem?_map, List.getElem?_range' hlt, Option.map_some,
    Option.map_eq_some_iff] at hget
  obtain ⟨a, ha, hn⟩ := hget
  rw [Nat.one_mul] at hn
  have hy : y.Sound := hs.quiet h.quiet
  obtain ⟨hz, hbinds⟩ := hy.unify_sound h.reads.1 (h.quiet.has ht)
  have hopen : ∀ u, y.binding (x.variableCount + position) ≠ .linked u :=
    h.quiet.keeps.fresh _ (by omega)
  have hsame := h.binding_of_unify hs hfixed ht htree hok (hy.wellFormed.var_lt hn) hopen
    fun other _ hp heq => hnot (by rwa [show position = other by omega])
  have hwritten : ((unify e t).run y).2.written a = .atom (.var (x.variableCount + position)) :=
    WellFormed.written_of_atom (hbinds.node_eq ▸ hn)
  refine ⟨a, ha, hn, ?_⟩
  rw [hz.ordered.meaning_eq_written, hwritten]
  intro id hid u hb
  rw [hwritten] at hid
  obtain rfl : id = x.variableCount + position := by simpa using hid
  exact hopen u (hsame ▸ hb)

end TypeStore

namespace Rule

/-- The source of the rule has a head, and neither a variable nor an error is written in
it. -/
structure Definite (rule : Rule) (s : TypeStore) : Prop where
  source_has : s.Has rule.source
  target_has : s.Has rule.target
  fixed : (s.written rule.source).Fixed
  error : ¬ (s.written rule.source).HasError
  head : (s.written rule.source).head? ≠ none

/-- The tree is the instance of the source of the rule with these arguments. -/
def Takes (rule : Rule) (s : TypeStore) (tree : Tree) (args : List Tree) : Prop :=
  args.length = rule.arity ∧ (s.written rule.source).fill args = tree

/-- The arguments that a rule takes the tree with.  There are no others for the parameters
of the source; for each other parameter stands a variable of its own, which is new since
`s` and free in `y`. -/
structure Fits (rule : Rule) (s y : TypeStore) (tree : Tree) (first : Nat) (args : List Tree) :
    Prop where
  takes : rule.Takes s tree args
  unique : ∀ others, rule.Takes s tree others →
    ∀ position, .param position ∈ (s.written rule.source).atoms →
      others[position]? = args[position]?
  new : s.variableCount ≤ first
  absent : ∀ position < rule.arity, .param position ∉ (s.written rule.source).atoms →
    args[position]? = some (.atom (.var (first + position))) ∧
      first + position < y.variableCount ∧
      ∃ name, y.binding (first + position) = .free (first + position) name

/-- What the rule gives for the tree: its target filled with the arguments, expanded. -/
def Gives (rule : Rule) (s y : TypeStore) (tree : Tree) (u : TypeId) : Prop :=
  ∃ first args, rule.Fits s y tree first args ∧ y.Expanded u ∧
    y.meaning u = s.followed ((s.written rule.target).fill args)

variable {rule : Rule} {s x : TypeStore} {t : TypeId} {tree : Tree} {args : List Tree}

/-- A definite rule is definite after quiet work. -/
theorem Definite.quiet (h : rule.Definite s) (hq : Quiet s x) : rule.Definite x where
  source_has := hq.has h.source_has
  target_has := hq.has h.target_has
  fixed := hq.written_eq h.source_has ▸ h.fixed
  error := hq.written_eq h.source_has ▸ h.error
  head := hq.written_eq h.source_has ▸ h.head

/-- **A rule that takes a tree has its head.** -/
theorem Takes.head?_eq (h : rule.Takes s tree args) (hrule : rule.Definite s) :
    (s.written rule.source).head? = tree.head? ∧ tree.head? ≠ none := by
  have heq : tree.head? = (s.written rule.source).head? := h.2 ▸ Tree.head?_fill hrule.head args
  exact ⟨heq.symm, heq ▸ hrule.head⟩

/-- An argument for a parameter of the source has no variables. -/
theorem Takes.fixed_arg (h : rule.Takes s tree args) (htree : tree.Fixed) {position : Nat}
    (hp : .param position ∈ (s.written rule.source).atoms) {arg : Tree}
    (harg : args[position]? = some arg) : arg.Fixed := by
  intro id hid
  refine htree id (h.2 ▸ mem_atoms_fill_iff.mpr (.inr ⟨position, arg, hp, harg, hid⟩))

/-- There is nothing to follow in the arguments that fit. -/
theorem Fits.followed_arg {y : TypeStore} {first : Nat} (h : rule.Fits s y tree first args)
    (htree : tree.Fixed) {arg : Tree} (harg : arg ∈ args) : s.followed arg = arg := by
  obtain ⟨position, hget⟩ := List.mem_iff_getElem?.mp harg
  have hlt : position < rule.arity := by
    rw [← h.takes.1]
    exact (List.getElem?_eq_some_iff.mp hget).1
  refine followed_eq_self fun id hid => ?_
  by_cases hp : .param position ∈ (s.written rule.source).atoms
  · exact absurd hid (h.takes.fixed_arg htree hp hget id)
  · obtain ⟨hvar, -⟩ := h.absent position hlt hp
    obtain rfl := Option.some.inj (hget.symm.trans hvar)
    have hnew := h.new
    obtain rfl : id = first + position := by simpa using hid
    omega

section Tried

variable {y z r : TypeStore} {e : TypeId} {vars : List TypeId}
  (hi : Instantiates x.opened y (s.written rule.source) rule.arity vars e) (hx : Quiet s x)
  (hs : x.Sound) (hrule : rule.Definite s) (ht : x.Has t) (htree : (x.meaning t).Fixed)
  (hz : (unify e t).run y = (.ok (), z))

include hi hx hs hrule ht htree hz

/-- The arguments that unification finds for a type without variables fit. -/
theorem fits_of_unify (hr : Quiet x r) (hnodes : vars.map r.node = vars.map y.node)
    (hfound : (s.written rule.source).fill (vars.map z.meaning) = x.meaning t) :
    rule.Fits s r (x.meaning t) x.variableCount (vars.map z.meaning) where
  takes := ⟨by rw [List.length_map, hi.length], hfound⟩
  unique others hothers position hp := by
    refine arg_eq_of_fill_eq ?_ (hothers.2.trans hfound.symm) hp
    rw [hothers.1, List.length_map, hi.length]
  new := hx.grows.count_le
  absent position hlt hnot := by
    obtain ⟨a, ha, hn, hmeaning⟩ := hi.meaning_absent (t := t) hs.opened hrule.fixed ht
      (by rwa [opened_meaning]) (by rw [hz]) hlt hnot
    rw [hz] at hmeaning
    have hsame : r.node a = y.node a := by simpa [ha] using congrArg (·[position]?) hnodes
    have hnode : r.node a = .atom (.var (x.variableCount + position)) := hsame.trans hn
    have hcount := hr.finish.wellFormed.var_lt hnode
    have hvar : (vars.map z.meaning)[position]? =
        some (.atom (.var (x.variableCount + position))) := by
      rw [List.getElem?_map, ha]
      exact congrArg some hmeaning
    exact ⟨hvar, hcount, hr.free _ (by omega) hcount⟩

/-- The target instantiated with the same variables means the target filled with what was
found, the links of its own variables followed. -/
theorem meaning_target
    (hfits : rule.Fits s r (x.meaning t) x.variableCount (vars.map z.meaning)) :
    let u := (instantiate rule.target vars).run z
    u.2.meaning u.1 = s.followed ((s.written rule.target).fill (vars.map z.meaning)) := by
  intro u
  have hhas : x.opened.Has t := ht
  obtain ⟨hsound, hbinds⟩ := (hs.opened.quiet hi.quiet).unify_sound hi.reads.1 (hi.quiet.has hhas)
  have hspares := hi.unify_spares hs.opened hrule.fixed hhas hfits.takes.1
    (.inr (.inr (by rw [hfits.takes.2, opened_meaning])))
  rw [hz] at hsound hbinds hspares
  obtain ⟨hq, hreads, hnodes⟩ := hi.instantiate_reads hbinds hsound.ordered
    (show x.opened.Has rule.target from hx.has hrule.target_has)
  rw [opened_written, hx.written_eq hrule.target_has] at hreads
  let σ := u.2.completed fun id => .atom (.var id)
  have hargs : vars.map z.meaning = (List.range' x.opened.variableCount rule.arity).map σ := by
    rw [← map_eq_map_of_imp hnodes fun a id hn => (value_of_var hn : u.2.value σ a = σ id)]
    refine List.map_congr_left fun a ha => ?_
    rw [← hq.meaning_eq (hbinds.has_iff.mpr (hi.has_args a ha)), hq.finish.meaning_eq_value]
  have hvars : ∀ id, .var id ∈ (s.written rule.target).atoms →
      σ id = s.completed (fun id => .atom (.var id)) id := by
    intro id hid
    have hlt := hx.start.wellFormed.var_lt_of_written hid
    rw [← hx.completed_eq hlt, ← opened_completed]
    refine (hi.extends_run hbinds hq).completed_eq_of_spares hs.opened.ordered hq.finish ?_ ?_ _
    · intro id hid hopen v hv
      obtain ⟨w, hw, -⟩ := hq.keeps.linked_cases hv
      exact hspares id hid hopen w hw
    · exact Nat.lt_of_lt_of_le hlt hx.grows.count_le
  rw [hq.finish.meaning_eq_value, value, hreads.2, hargs]
  refine Tree.subst_withVars_eq hvars fun arg harg => ?_
  rw [← hargs] at harg
  exact hfits.followed_arg htree harg

end Tried

/-- **The target of a rule for a type without variables.** -/
theorem target?_ground (hs : s.Sound) (hrule : rule.Definite s) (hx : Quiet s x) (ht : x.Has t)
    (hground : (x.meaning t).Ground) :
    let r := (rule.target? t).run x
    Quiet x r.2 ∧
      ((r.1 = none ∧ ∀ args, ¬ rule.Takes s (x.meaning t) args) ∨
        ∃ u, r.1 = some u ∧ rule.Gives s r.2 (x.meaning t) u) := by
  intro r
  have hsx := hs.quiet hx
  have hsource := hx.written_eq hrule.source_has
  have hrulex := hrule.quiet hx
  have hplain : x.Plain t := fun hparam => absurd hparam (Tree.proper_iff.mp hground.2).2
  obtain ⟨hi, -, hz, hbinds, -, -⟩ := hsx.unify_instance (n := rule.arity) hrulex.source_has
    hrulex.fixed ht (.inr hplain)
  obtain ⟨-, -, -, hmatches, hfound, -⟩ := hsx.trial_ground (n := rule.arity)
    hrulex.source_has hrulex.fixed hrulex.error ht hground
  have htrial := trial_eq x.opened rule.source rule.arity t
  obtain ⟨vars, hvars⟩ : ∃ vars, (newVars rule.arity).run x.opened = vars := ⟨_, rfl⟩
  obtain ⟨e, he⟩ : ∃ e, (instantiate rule.source vars.1).run vars.2 = e := ⟨_, rfl⟩
  obtain ⟨⟨answer, z⟩, hunify⟩ : ∃ z, (unify e.1 t).run e.2 = z := ⟨_, rfl⟩
  obtain ⟨hq, hnone, hsome⟩ := target?_cases hsx hrulex.source_has hrulex.target_has
    hrulex.fixed ht (.inr hplain) hvars he hunify
  simp only [hvars, he, hunify] at hi hz hbinds htrial
  rw [htrial, hsource] at hmatches hfound
  rw [hsource] at hi
  simp only [decide_eq_true_eq] at hmatches hfound
  by_cases hok : answer = .ok ()
  · subst hok
    obtain ⟨v, hanswer, hhas, hwritten, hresult, hnodes⟩ := hsome rfl
    obtain ⟨hqz, -, hvarNodes⟩ := hi.instantiate_reads hbinds hz.ordered
      (show x.opened.Has rule.target from hrulex.target_has)
    have hkept : vars.1.map r.2.node = vars.1.map e.2.node := by
      rw [hi.nodes, ← hvarNodes]
      refine List.map_congr_left fun a ha => hnodes ?_
      exact hqz.has (hbinds.has_iff.mpr (hi.has_args a ha))
    have hfits := fits_of_unify hi hx hsx hrule ht hground.1 hunify hq hkept (hfound rfl)
    refine ⟨hq, .inr ⟨v, hanswer, _, _, hfits, ⟨hhas, hwritten⟩, ?_⟩⟩
    rw [hresult]
    exact meaning_target hi hx hsx hrule ht hground.1 hunify hfits
  · exact ⟨hq, .inl ⟨hnone hok, fun args hargs => hok (hmatches.mpr ⟨args, hargs⟩)⟩⟩

open Classical in
/-- The answer is what the first rule gives that takes the tree; there is none if no rule
takes it. -/
def FirstGives (rules : List Rule) (s : TypeStore) (tree : Tree)
    (answer : Option TypeId × TypeStore) : Prop :=
  match rules.find? fun rule => decide (∃ args, rule.Takes s tree args) with
  | none => answer.1 = none
  | some rule => ∃ u, answer.1 = some u ∧ rule.Gives s answer.2 tree u

section Rules

variable {rules : List Rule} {answer : Option TypeId × TypeStore}

theorem firstGives_nil : FirstGives [] s tree (none, x) := rfl

/-- The first rule that matches gives the answer. -/
theorem firstGives_cons {u : TypeId} (hanswer : answer.1 = some u)
    (h : rule.Gives s answer.2 tree u) : FirstGives (rule :: rules) s tree answer := by
  have htakes : ∃ args, rule.Takes s tree args := by
    obtain ⟨first, args, hfits, -⟩ := h
    exact ⟨args, hfits.takes⟩
  unfold FirstGives
  rw [List.find?_cons_of_pos (by simpa using htakes)]
  exact ⟨u, hanswer, h⟩

/-- A rule that does not match is passed over. -/
theorem firstGives_cons_of_not_takes (h : ∀ args, ¬ rule.Takes s tree args)
    (hrest : FirstGives rules s tree answer) : FirstGives (rule :: rules) s tree answer := by
  unfold FirstGives at hrest ⊢
  rwa [List.find?_cons_of_neg (by simpa using h)]

/-- **Looking at the head first** skips no rule that takes the type. -/
theorem targetUnder?_ground (hs : s.Sound) (hrule : rule.Definite s) (hx : Quiet s x) (ht : x.Has t)
    (hground : (x.meaning t).Ground) {head : Head} (hhead : (x.meaning t).head? = some head) :
    let r := (rule.targetUnder? head t).run x
    Quiet x r.2 ∧
      ((r.1 = none ∧ ∀ args, ¬ rule.Takes s (x.meaning t) args) ∨
        ∃ u, r.1 = some u ∧ rule.Gives s r.2 (x.meaning t) u) := by
  intro r
  by_cases hsame : x.head? rule.source = some head
  · have hrun : r = (rule.target? t).run x := by
      simp only [r, targetUnder?, run_bind, run_get, hsame, if_true]
    rw [hrun]
    exact target?_ground hs hrule hx ht hground
  · have hrun : r = (none, x) := by
      simp only [r, targetUnder?, run_bind, run_get, hsame, if_false]
      rfl
    rw [hrun]
    refine ⟨.refl hx.finish, .inl ⟨rfl, fun args htakes => hsame ?_⟩⟩
    rw [head?_source hx hrule.source_has hrule.fixed, (htakes.head?_eq hrule).1, hhead]

/-- **Rules that are tried under a head** give what all rules would: those with another
head do not match a ground type. -/
theorem tryRules_ground (hs : s.Sound) (hrules : ∀ rule ∈ rules, rule.Definite s) (hx : Quiet s x)
    (ht : x.Has t) (hground : (x.meaning t).Ground) {head : Head}
    (hhead : (x.meaning t).head? = some head) :
    let r := (rules.findSomeM? (targetUnder? head t)).run x
    Quiet x r.2 ∧ FirstGives rules s (x.meaning t) r := by
  induction rules generalizing x with
  | nil => exact ⟨.refl hx.finish, firstGives_nil⟩
  | cons rule rules ih =>
      obtain ⟨hq, hcase⟩ :=
        targetUnder?_ground hs (hrules rule List.mem_cons_self) hx ht hground hhead
      obtain ⟨first, hfirst⟩ : ∃ first, (rule.targetUnder? head t).run x = first := ⟨_, rfl⟩
      rw [hfirst] at hq hcase
      rw [List.findSomeM?_cons, run_bind, hfirst]
      obtain ⟨hnone, hnot⟩ | ⟨u, hsome, hgives⟩ := hcase
      · have hmeaning := hq.meaning_eq ht
        obtain ⟨hq', hrest⟩ := ih (fun rule' h => hrules rule' (List.mem_cons_of_mem _ h))
          (hx.trans hq) (hq.has ht) (hmeaning ▸ hground) (hmeaning ▸ hhead)
        rw [hnone]
        rw [hmeaning] at hrest
        exact ⟨hq.trans hq', firstGives_cons_of_not_takes hnot hrest⟩
      · rw [hsome]
        exact ⟨hq, firstGives_cons rfl hgives⟩

/-- **Trying the rules in turn** on a type without variables. -/
theorem firstTarget?_ground (hs : s.Sound) (hrules : ∀ rule ∈ rules, rule.Definite s)
    (hx : Quiet s x) (ht : x.Has t) (hground : (x.meaning t).Ground) :
    let r := (firstTarget? rules t).run x
    Quiet x r.2 ∧ FirstGives rules s (x.meaning t) r := by
  intro r
  cases hhead : x.head? t with
  | none =>
      have hrun : r = (none, x) := by
        simp only [r, firstTarget?, run_bind, run_get, hhead]
        rfl
      rw [hx.finish.head?_eq] at hhead
      have hnone : FirstGives rules s (x.meaning t) (none, x) := by
        unfold FirstGives
        rw [List.find?_eq_none.mpr fun rule hmem => ?_]
        simp only [decide_eq_true_eq, not_exists]
        exact fun args htakes => (htakes.head?_eq (hrules rule hmem)).2 hhead
      rw [hrun]
      exact ⟨.refl hx.finish, hnone⟩
  | some head =>
      have hrun : r = (rules.findSomeM? (targetUnder? head t)).run x := by
        simp only [r, firstTarget?, run_bind, run_get, hhead]
        rfl
      rw [hx.finish.head?_eq] at hhead
      rw [hrun]
      exact tryRules_ground hs hrules hx ht hground hhead

/-- The same from the root of the type, where coercing starts. -/
theorem firstTarget?_root_ground (hs : s.Sound) (hrules : ∀ rule ∈ rules, rule.Definite s)
    (ht : s.Has t) (hground : (s.meaning t).Ground) (hx : Quiet s x) :
    let r := (firstTarget? rules (s.root t)).run x
    Quiet s r.2 ∧ FirstGives rules s (s.meaning t) r := by
  intro r
  have hroot : s.Has (s.root t) := hs.ordered.has_root ht
  have hmeaning : x.meaning (s.root t) = s.meaning t := by
    rw [hx.meaning_eq hroot, hs.ordered.meaning_root]
  obtain ⟨hq, hfirst⟩ := firstTarget?_ground hs hrules hx (hx.has hroot) (by rwa [hmeaning])
  rw [hmeaning] at hfirst
  exact ⟨hx.trans hq, hfirst⟩

end Rules

end Rule

/-- The types `Pair<P, P>` and `Pair<Q, P>` of two parameters, and `Pair<bool, bool>`. -/
def pairs : StateM TypeStore (TypeId × TypeId × TypeId) := do
  let p ← paramAt 0
  let q ← paramAt 1
  let source ← nominalType .blank [p, p]
  let target ← nominalType .blank [q, p]
  let pair ← nominalType .blank [.ofPrimitive .bool, .ofPrimitive .bool]
  pure (source, target, pair)

theorem TypeStore.Reached.pair_run {checkpoints : List Checkpoint} {s : TypeStore} {t u : TypeId}
    {a b : Atom} (h : Reached checkpoints s) (ht : s.Reads (.atom a) t) (hu : s.Reads (.atom b) u) :
    let r := (nominalType .blank [t, u]).run s
    Reached checkpoints r.2 ∧ Quiet s r.2 ∧
      r.2.Reads (.app (.nominal .blank) [.atom a, .atom b]) r.1 := by
  intro r
  obtain ⟨hreached, hq, -, hhas, hnode⟩ :=
    h.nominalType_run .blank (fun a ha => by
      obtain rfl | rfl : a = t ∨ a = u := by simpa using ha
      · exact ht.1
      · exact hu.1 : ∀ a ∈ [t, u], s.Has a)
  refine ⟨hreached, hq, hhas, ?_⟩
  rw [hreached.sound.wellFormed.written_of_app hnode]
  simp [hq.written_eq ht.1, hq.written_eq hu.1, ht.2, hu.2]

theorem pairs_run :
    let w := pairs.run new
    w.2.Sound ∧ w.2.Reads (.app (.nominal .blank) [.atom (.param 0), .atom (.param 0)]) w.1.1 ∧
      w.2.Reads (.app (.nominal .blank) [.atom (.param 1), .atom (.param 0)]) w.1.2.1 ∧
      w.2.Reads (.app (.nominal .blank) [.atom (.prim .bool), .atom (.prim .bool)]) w.1.2.2 := by
  intro w
  obtain ⟨hreached₁, -, hhasp, hp⟩ := Reached.new.paramAt_run 0
  obtain ⟨p, hrun₁⟩ : ∃ p, (paramAt 0).run new = p := ⟨_, rfl⟩
  rw [hrun₁] at hreached₁ hhasp hp
  obtain ⟨hreached₂, hadds₂, hhasq, hq⟩ := hreached₁.paramAt_run 1
  obtain ⟨q, hrun₂⟩ : ∃ q, (paramAt 1).run p.2 = q := ⟨_, rfl⟩
  rw [hrun₂] at hreached₂ hadds₂ hhasq hq
  have hwf := hreached₂.sound.wellFormed
  have hq : q.2.Reads (.atom (.param 1)) q.1 := ⟨hhasq, WellFormed.written_of_atom hq⟩
  have hp : q.2.Reads (.atom (.param 0)) p.1 :=
    hadds₂.reads hreached₁.sound.wellFormed hwf ⟨hhasp, WellFormed.written_of_atom hp⟩
  obtain ⟨hreached₃, hquiet₃, hsource⟩ := hreached₂.pair_run hp hp
  obtain ⟨source, hrun₃⟩ : ∃ t, (nominalType .blank [p.1, p.1]).run q.2 = t := ⟨_, rfl⟩
  rw [hrun₃] at hreached₃ hquiet₃ hsource
  obtain ⟨hreached₄, hquiet₄, htarget⟩ := hreached₃.pair_run (hquiet₃.reads hq) (hquiet₃.reads hp)
  obtain ⟨target, hrun₄⟩ : ∃ t, (nominalType .blank [q.1, p.1]).run source.2 = t := ⟨_, rfl⟩
  rw [hrun₄] at hreached₄ hquiet₄ htarget
  have hbool := hreached₄.reads_primitive .bool
  obtain ⟨hreached₅, hquiet₅, hpair⟩ := hreached₄.pair_run hbool hbool
  obtain ⟨pair, hrun₅⟩ : ∃ t,
    (nominalType .blank [.ofPrimitive .bool, .ofPrimitive .bool]).run target.2 = t := ⟨_, rfl⟩
  rw [hrun₅] at hreached₅ hquiet₅ hpair
  have hw : w = ((source.1, target.1, pair.1), pair.2) := by
    simp only [w, pairs, run_bind, hrun₁, hrun₂, hrun₃, hrun₄, hrun₅, run_pure]
  rw [hw]
  exact ⟨hreached₅.sound, (hquiet₄.trans hquiet₅).reads hsource, hquiet₅.reads htarget, hpair⟩

namespace Declarations

variable {s : TypeStore} {t : TypeId}

/-- **Declared coercions are one-sided matching.**  A type without variables, parameters and
errors that is no reference is dereferenced by the first rule of which it is an instance,
and to nothing if there is none; one that is no array is unsized in the same way.  The
result is expanded and means the target of the rule with the arguments of the instance,
which leaves no choice for the parameters of the source; for each other parameter stands a
free new variable of its own.  A rule of which the type is an instance has the head of the
type, so that looking at the head first skips none. -/
theorem coerces_by_matching (d : Declarations) (hs : s.Sound) (ht : s.Has t)
    (hground : (s.meaning t).Ground) :
    ((∀ rule ∈ d.derefs, rule.Definite s) →
      (∀ b pointee rest, s.meaning t ≠ .app (.ref b) (pointee :: rest)) →
      let r := (d.deref? t).run s
      Quiet s r.2 ∧ Rule.FirstGives d.derefs s (s.meaning t) r) ∧
    ((∀ rule ∈ d.unsizings, rule.Definite s) →
      (∀ n elem rest, s.meaning t ≠ .app (.array n) (elem :: rest)) →
      let r := (d.unsize? t).run s
      Quiet s r.2 ∧ Rule.FirstGives d.unsizings s (s.meaning t) r) ∧
    ∀ rule : Rule, rule.Definite s → ∀ args, rule.Takes s (s.meaning t) args →
      s.head? rule.source = s.head? t ∧ s.head? t ≠ none := by
  have hroot : ∀ {f args}, s.node (s.root t) = .app f args →
      s.meaning t = .app f (args.map s.meaning) := hs.ordered.meaning_of_app
  refine ⟨fun hrules href => ?_, fun hrules harr => ?_, fun rule hrule args htakes => ?_⟩
  · obtain ⟨x, hx, hrun⟩ := d.deref?_eq_firstTarget? hs.ordered ht fun b pointee rest hn =>
      href b _ _ (hroot hn)
    rw [hrun]
    exact Rule.firstTarget?_root_ground hs hrules ht hground hx
  · obtain ⟨x, hx, hrun⟩ := d.unsize?_eq_firstTarget? hs.ordered ht fun n elem rest hn =>
      harr n _ _ (hroot hn)
    rw [hrun]
    exact Rule.firstTarget?_root_ground hs hrules ht hground hx
  · obtain ⟨hhead, hsome⟩ := htakes.head?_eq hrule
    rw [Rule.head?_source (.refl hs.ordered) hrule.source_has hrule.fixed, hs.ordered.head?_eq]
    exact ⟨hhead, hsome⟩

/-- By the rule from `Pair<P, P>` to `Pair<Q, P>`, what `Pair<bool, bool>` dereferences to
has a free variable for `Q` and `bool` for `P`. -/
theorem coerces_by_matching_pair :
    let w := pairs.run new
    let d := { Declarations.empty with derefs := [⟨2, w.1.1, w.1.2.1⟩] }
    let r := (d.deref? w.1.2.2).run w.2
    ∃ u id name, r.1 = some u ∧ r.2.binding id = .free id name ∧
      r.2.meaning u = .app (.nominal .blank) [.atom (.var id), .atom (.prim .bool)] := by
  intro w d r
  have hw := pairs_run
  rw [show pairs.run new = w from rfl] at hw
  clear_value w
  obtain ⟨hs, ⟨hsource, hwsource⟩, ⟨htarget, hwtarget⟩, hpair, hwpair⟩ := hw
  have hmeaning : w.2.meaning w.1.2.2 =
      .app (.nominal .blank) [.atom (.prim .bool), .atom (.prim .bool)] := by
    rw [hs.ordered.meaning_eq_written fun id hid => by simp [hwpair] at hid, hwpair]
  have hground : (w.2.meaning w.1.2.2).Ground := by
    rw [hmeaning, ground_iff]
    simp [Atom.IsError, Atom.IsParam]
  have hrule : (⟨2, w.1.1, w.1.2.1⟩ : Rule).Definite w.2 :=
    { source_has := hsource
      target_has := htarget
      fixed := by simp [hwsource, Fixed]
      error := by simp [hwsource, HasError, Atom.IsError]
      head := by simp [hwsource, Tree.head?] }
  have htakes : (⟨2, w.1.1, w.1.2.1⟩ : Rule).Takes w.2 (w.2.meaning w.1.2.2)
      [.atom (.prim .bool), .atom (.prim .bool)] := by
    refine ⟨rfl, ?_⟩
    rw [hwsource, hmeaning]
    rfl
  obtain ⟨hderef, -⟩ := coerces_by_matching d hs hpair hground
  obtain ⟨-, hfirst⟩ := hderef (List.forall_mem_singleton.mpr hrule) (by simp [hmeaning])
  unfold Rule.FirstGives at hfirst
  rw [List.find?_cons_of_pos (by simpa using ⟨_, htakes⟩)] at hfirst
  obtain ⟨u, hu, first, args, hfits, -, hresult⟩ := hfirst
  obtain ⟨hvar, -, name, hfree⟩ := hfits.absent 1 Nat.one_lt_two (by simp [hwsource])
  have hbool := hfits.unique _ htakes 0 (by simp [hwsource])
  refine ⟨u, first + 1, name, hu, hfree, hresult.trans ?_⟩
  have hfilled : (w.2.written w.1.2.1).fill args =
      .app (.nominal .blank) [.atom (.var (first + 1)), .atom (.prim .bool)] := by
    simp [hwtarget, hvar, ← hbool]
  rw [hfilled]
  refine followed_eq_self fun id hid => ?_
  obtain rfl : id = first + 1 := by simpa using hid
  exact Nat.le_succ_of_le hfits.new

end Declarations

end DotCall
