import DotCall.Proofs.ImplIndex

/-!
# Nothing is lost in gathering

Only impls with certain heads are asked, and of these only the ones that fit are
kept.  The result is the same as that of asking all impls: a pattern matches only
types of its own head; a borrowed pattern matches a reference step where the
pattern matches the step after it, since every reference step is followed by what
the reference points at.
-/

namespace DotCall

open TypeStore DotCall.Tree

namespace Tree

variable {pattern tree : Tree} {n : Nat}

/-- A pattern matches only trees of its own head, if both have one. -/
theorem Matches.head?_eq (h : pattern.Matches n tree) (hp : ¬ pattern.HasError)
    (ht : ¬ tree.HasError) (hpattern : pattern.head? ≠ none) (htree : tree.head? ≠ none) :
    pattern.head? = tree.head? := by
  rcases h with he | he | ⟨rfl, -⟩ | ⟨-, -, args, -, σ, hσ⟩
  · exact absurd he ht
  · exact absurd he hp
  · rfl
  · rw [← head?_fill hpattern args, hσ, head?_subst htree]

/-- A pattern in a former matches a tree with a head only if that has the same
former, and then the pattern matches what is in it. -/
theorem Matches.exists_part {f : Former} (h : (Tree.app f [pattern]).Matches n tree)
    (hp : ¬ pattern.HasError) (ht : ¬ tree.HasError) (htree : tree.head? ≠ none) :
    ∃ part, tree = .app f [part] ∧ pattern.Matches n part := by
  have hatoms : ∀ {t : Tree} {a : Atom}, a ∈ (Tree.app f [t]).atoms ↔ a ∈ t.atoms := by simp
  rcases h with he | he | ⟨rfl, hbare⟩ | ⟨hproper, hscoped, args, hlen, σ, hσ⟩
  · exact absurd he ht
  · exact absurd (by simpa only [HasError, hatoms] using he) hp
  · refine ⟨pattern, rfl, .inr (.inr (.inl ⟨rfl, ?_⟩))⟩
    simpa only [Bare, hatoms] using hbare
  · rw [fill_app] at hσ
    cases tree with
    | atom a =>
        cases a with
        | var id => exact absurd rfl htree
        | _ => cases hσ
    | app g ts =>
        rw [subst_app] at hσ
        obtain ⟨rfl, hts⟩ := Tree.app.inj hσ
        obtain ⟨part, rfl⟩ : ∃ part, ts = [part] := by
          refine List.length_eq_one_iff.mp ?_
          simpa using (congrArg List.length hts).symm
        refine ⟨part, rfl, .inr (.inr (.inr ⟨?_, ?_, args, hlen, σ, ?_⟩))⟩
        · simpa only [Proper, hatoms] using hproper
        · simpa only [Scoped, hatoms] using hscoped
        · simpa using hts

end Tree

namespace Declarations

/-- No error occurs in the self types of impls and in what rules make. -/
structure ErrorFree (d : Declarations) (s : TypeStore) : Prop where
  self : ∀ {id decl}, d.impl? id = some decl → ¬ (s.written decl.self).HasError
  deref : ∀ rule ∈ d.derefs, ¬ (s.written rule.target).HasError
  unsizing : ∀ rule ∈ d.unsizings, ¬ (s.written rule.target).HasError

/-- Whatever is put for its parameters, no declared unsizing makes a reference. -/
def UnsizesToValues (d : Declarations) (s : TypeStore) : Prop :=
  ∀ rule ∈ d.unsizings, ∀ args b parts, (s.written rule.target).fill args ≠ .app (.ref b) parts

end Declarations

section ErrorFree

variable {d : Declarations} {s y : TypeStore} {rules : List Rule} {tree result : Tree}

/-- What is converted is what some rule yields. -/
theorem Converts.exists_rule (h : Converts rules s tree (some result)) :
    ∃ rule ∈ rules, rule.Yields s tree result := by
  unfold Converts at h
  split at h
  · cases h
  · next rule hfind =>
      obtain ⟨_, heq, hyields⟩ := h
      cases heq
      exact ⟨rule, List.mem_of_find?_eq_some hfind, hyields⟩

/-- A rule without errors yields none, as its parameters stand for parts of a type without
errors. -/
theorem Rule.Yields.errorFree {rule : Rule} (h : rule.Yields s tree result)
    (htarget : ¬ (s.written rule.target).HasError) : ¬ result.HasError := by
  obtain ⟨args, -, hproper, -, -, rfl⟩ := h
  intro hex
  obtain ⟨a, ha, herror⟩ := hex
  rcases mem_atoms_fill_iff.mp ha with ⟨ha, -⟩ | ⟨position, u, -, hu, ha⟩
  · exact htarget ⟨a, ha, herror⟩
  · exact (proper_iff.mp (hproper u (List.mem_of_getElem? hu))).1 ⟨a, ha, herror⟩

/-- An error in a part is an error in the whole. -/
theorem hasError_of_part {f : Former} {t : Tree} {ts : List Tree} (ht : t ∈ ts)
    (h : t.HasError) : (Tree.app f ts).HasError := by
  obtain ⟨a, ha, herror⟩ := h
  exact ⟨a, mem_atoms_app.mpr ⟨t, ht, ha⟩, herror⟩

/-- Dereferencing brings no error in. -/
theorem Declarations.DerefsTo.errorFree (h : d.DerefsTo s tree (some result)) (hd : d.ErrorFree s)
    (htree : ¬ tree.HasError) : ¬ result.HasError := by
  unfold Declarations.DerefsTo at h
  split at h
  · cases h
    exact fun he => htree (hasError_of_part List.mem_cons_self he)
  · obtain ⟨rule, hmem, hyields⟩ := h.exists_rule
    exact hyields.errorFree (hd.deref rule hmem)

/-- Unsizing brings no error in. -/
theorem Declarations.UnsizesTo.errorFree (h : d.UnsizesTo s tree (some result)) (hd : d.ErrorFree s)
    (htree : ¬ tree.HasError) : ¬ result.HasError := by
  unfold Declarations.UnsizesTo at h
  split at h
  · cases h
    intro hex
    obtain ⟨a, ha, herror⟩ := hex
    exact htree ⟨a, mem_atoms_app.mpr ⟨_, List.mem_cons_self, by simpa using ha⟩, herror⟩
  · obtain ⟨rule, hmem, hyields⟩ := h.exists_rule
    exact hyields.errorFree (hd.unsizing rule hmem)

/-- Where no rule unsizes to a borrow, nothing does. -/
theorem Declarations.UnsizesTo.not_ref (h : d.UnsizesTo s tree (some result))
    (hd : d.UnsizesToValues s) (b : Borrow) (parts : List Tree) : result ≠ .app (.ref b) parts := by
  unfold Declarations.UnsizesTo at h
  split at h
  · cases h
    simp
  · obtain ⟨rule, hmem, args, -, -, -, -, rfl⟩ := h.exists_rule
    exact hd rule hmem args b parts

/-- No error occurs in a chain that starts without one. -/
theorem Chain.errorFree {chain : List TypeId} (h : Chain d s y chain) (hd : d.ErrorFree s)
    (hfirst : ∀ t, chain.head? = some t → ¬ (y.meaning t).HasError) :
    ∀ t ∈ chain, ¬ (y.meaning t).HasError := by
  induction h with
  | last _ _ => simpa using hfirst
  | @next t u rest _ leads _ ih =>
      have ht : ¬ (y.meaning t).HasError := hfirst t rfl
      intro v hv
      rcases List.mem_cons.mp hv with rfl | hv
      · exact ht
      · refine ih (fun w hw => ?_) v hv
        cases hw
        exact leads.errorFree hd ht

/-- In a chain every reference is followed by what it points at. -/
theorem Chain.exists_pointee {chain : List TypeId} (h : Chain d s y chain) {t : TypeId}
    (ht : t ∈ chain) {b : Borrow} {pointee : Tree} (href : y.meaning t = .app (.ref b) [pointee]) :
    ∃ u ∈ chain, y.meaning u = pointee := by
  induction h with
  | last _ stops =>
      obtain rfl := List.mem_singleton.mp ht
      rw [href] at stops
      cases stops
  | @next t' u rest _ leads _ ih =>
      rcases List.mem_cons.mp ht with rfl | ht
      · rw [href] at leads
        cases leads
        exact ⟨u, by simp, rfl⟩
      · obtain ⟨v, hv, hmeaning⟩ := ih ht
        exact ⟨v, List.mem_cons_of_mem _ hv, hmeaning⟩

end ErrorFree

namespace Stepping

variable {d : Declarations} {s y : TypeStore} {first : TypeId} {chain : List TypeId}
  {last? : Option TypeId}

/-- No step contains an error when the first does not. -/
theorem errorFree (h : Stepping d s y first chain last?) (hd : d.ErrorFree s)
    (hfirst : ¬ (y.meaning first).HasError) :
    ∀ step ∈ steps chain last?, ¬ (y.meaning step.ty).HasError := by
  obtain ⟨rest, rfl⟩ := h.starts
  have hchain := h.links.errorFree hd fun t ht => by
    cases ht
    exact hfirst
  intro step hstep
  rcases List.mem_append.mp hstep with hstep | hstep
  · obtain ⟨t, ht, rfl⟩ := List.mem_map.mp hstep
    exact hchain t ht
  · obtain ⟨u, hu, rfl⟩ := List.mem_map.mp hstep
    obtain rfl : last? = some u := by simpa using hu
    obtain ⟨last, -, hlast, hunsizes⟩ := h.exists_last
    exact hunsizes.errorFree hd (hchain last hlast)

/-- **Every reference step is followed** by what the reference points at. -/
theorem exists_pointee (h : Stepping d s y first chain last?) (hd : d.UnsizesToValues s)
    {step : Step} (hstep : step ∈ steps chain last?) {b : Borrow} {pointee : Tree}
    (href : y.meaning step.ty = .app (.ref b) [pointee]) :
    ∃ next ∈ steps chain last?, y.meaning next.ty = pointee := by
  rcases List.mem_append.mp hstep with hstep | hstep
  · obtain ⟨t, ht, rfl⟩ := List.mem_map.mp hstep
    obtain ⟨u, hu, hmeaning⟩ := h.links.exists_pointee ht href
    exact ⟨⟨u, false⟩, List.mem_append_left _ (List.mem_map.mpr ⟨u, hu, rfl⟩), hmeaning⟩
  · obtain ⟨u, hu, rfl⟩ := List.mem_map.mp hstep
    obtain rfl : last? = some u := by simpa using hu
    obtain ⟨last, -, -, hunsizes⟩ := h.exists_last
    exact absurd href (hunsizes.not_ref hd b [pointee])

/-- **No impl is missed**: one that reaches a step is sought. -/
theorem sought_of_reaches (h : Stepping d s y first chain last?) (hy : y.Ordered)
    (hd : d.UnsizesToValues s)
    (hsteps : ∀ step ∈ steps chain last?, ¬ (y.meaning step.ty).HasError) {v : Provision}
    (hself : ¬ (y.written v.decl.self).HasError) (hreaches : v.Reaches y (steps chain last?)) :
    Sought y (steps chain last?) (y.written v.decl.self).head? := by
  by_cases hnone : (y.written v.decl.self).head? = none
  · exact .inl hnone
  by_cases hopen : ∃ step ∈ steps chain last?, y.head? step.ty = none
  · obtain ⟨step, hstep, hopen⟩ := hopen
    exact .inr (.inr ⟨step, hstep, .inl hopen⟩)
  have hhead : ∀ step ∈ steps chain last?, (y.meaning step.ty).head? ≠ none := fun step hstep he =>
    hopen ⟨step, hstep, (hy.head?_eq _).trans he⟩
  have hmatched : ∀ step ∈ steps chain last?,
      (y.written v.decl.self).Matches v.decl.arity (y.meaning step.ty) →
      Sought y (steps chain last?) (y.written v.decl.self).head? := by
    intro step hstep hmatch
    refine .inr (.inr ⟨step, hstep, .inr ?_⟩)
    rw [hy.head?_eq]
    exact hmatch.head?_eq hself (hsteps step hstep) hnone (hhead step hstep)
  unfold Provision.Reaches at hreaches
  split at hreaches
  · next passing _ =>
      obtain ⟨step, hstep, p, hmatch⟩ := hreaches
      cases passing with
      | byValue =>
          cases p with
          | byValue => exact hmatched step hstep hmatch
          | byBorrow b =>
              refine .inr (.inl ⟨b, ?_⟩)
              exact hmatch.head?_eq hself (Passing.hasError_tree.not.mpr (hsteps step hstep)) hnone
                (by simp [Passing.tree, Tree.head?])
      | byBorrow b =>
          -- The borrow is the one that is tried, or the step is a reference itself.
          obtain ⟨part, hpart, hmatch⟩ := hmatch.exists_part hself
            (Passing.hasError_tree.not.mpr (hsteps step hstep)) (by
              cases p with
              | byValue => exact hhead step hstep
              | byBorrow b' => simp [Passing.tree, Tree.head?])
          cases p with
          | byValue =>
              obtain ⟨next, hnext, rfl⟩ := h.exists_pointee hd hstep hpart
              exact hmatched next hnext hmatch
          | byBorrow b' =>
              obtain ⟨-, hparts⟩ := Tree.app.inj hpart
              obtain rfl := (List.cons.inj hparts).1
              exact hmatched step hstep hmatch
  · obtain ⟨step, hstep, hmatch⟩ := hreaches
    exact hmatched step hstep hmatch

end Stepping

/-- What the candidate expects unifies with the type `t` passed as `p`, tried alone
on the store `s`. -/
def Candidate.fitsAlone (c : Candidate) (s : TypeStore) (p : Passing) (t : TypeId) : Bool :=
  ((p.form t >>= c.fits).run s).1

namespace Resolver

/-- The definition of an impl unifies with a step, tried alone on the store `s`: what
a method expects with the step or a borrow of it, the self type of a function's impl
with the step. -/
def applies (r : Resolver) (s : TypeStore) (steps : List Step) : Definition → Bool
  | .method c => steps.any fun step => Passing.all.any fun p => c.fitsAlone s p step.ty
  | .function (.impl id) => (r.db.impl? id).any fun decl =>
      steps.any fun step => ((decl.selfFits step.ty).run s).1
  | .function _ => false

/-- The definitions of the name that the given impls have, whether or not they
apply. -/
def scan (r : Resolver) (impls : List ImplId) (method : Symbol) (visible : List TraitId) :
    StateM TypeStore (List Definition) := do
  let found ← impls.mapM (r.definitionOf? method visible)
  pure (found.filterMap id)

end Resolver

section Scanning

variable {r : Resolver} {s x y z : TypeStore} {t : TypeId} {c : Candidate} {steps : List Step}
  {method : Symbol} {visible : List TraitId}

/-- A candidate fits a step, tried alone, when its pattern matches what the step means. -/
theorem Candidate.fitsAlone_iff (hs : s.Sound) (hc : c.Stands s) (ht : s.Expanded t)
    (p : Passing) :
    c.fitsAlone s p t = true ↔
      (s.written c.expected).Matches c.arity (p.tree (s.meaning t)) := by
  obtain ⟨hq, hmeaning, hfollows⟩ := hs.ordered.form_run p ht.1
  obtain ⟨-, hiff⟩ := c.fits_run (hs.quiet hq) (hc.quiet hq) (hfollows.expanded ht)
  rw [hmeaning, hq.written_eq hc.has] at hiff
  exact hiff

/-- **The definition of an impl applies** exactly when the impl reaches a step. -/
theorem Provision.Defines.applies_iff {v : Provision} {id : ImplId} {o : Definition}
    (h : v.Defines s y method id o) (hs : s.Sound) (hy : Quiet s y)
    (hv : r.db.impl? id = some v.decl) (hself : r.SelfFixed s)
    (hsteps : ∀ step ∈ steps, s.Expanded step.ty) :
    r.applies y steps o = true ↔ v.Reaches s steps := by
  obtain ⟨hhas, hfixed⟩ := hself hv
  unfold Provision.Defines at h
  unfold Provision.Reaches
  split at h
  · next passing hpassing =>
      obtain ⟨e, he, rfl⟩ := h
      simp only [Resolver.applies, List.any_eq_true]
      refine exists_congr fun step => and_congr_right fun hstep => ?_
      have hstands : Candidate.Stands
          ⟨.impl id, v.standing, method, passing, v.decl.self, v.decl.arity, e⟩ y :=
        ⟨he.1, by rw [he.2]; exact Passing.fixed_tree.mpr hfixed⟩
      have hexpanded := hsteps step hstep
      simp only [Candidate.fitsAlone_iff (hs.quiet hy) hstands (hexpanded.quiet hy), he.2,
        hy.meaning_eq hexpanded.1, Passing.mem_all, true_and]
  · next hpassing =>
      subst h
      simp only [Resolver.applies, hv, Option.any_some, List.any_eq_true]
      refine exists_congr fun step => and_congr_right fun hstep => ?_
      have hexpanded := hsteps step hstep
      obtain ⟨-, hiff⟩ := v.decl.selfFits_run (hs.quiet hy) (hy.has hhas)
        (hy.written_eq hhas ▸ hfixed) (hexpanded.quiet hy)
      rw [hiff, hy.written_eq hhas, hy.meaning_eq hexpanded.1]

/-- Scanning is quiet. -/
theorem calm_scan (hself : r.SelfFixed s) (impls : List ImplId) (method : Symbol)
    (visible : List TraitId) :
    Calm s (r.scan impls method visible) fun y definitions =>
      ∃ found, List.Forall₂ (r.Contributes s method visible (fun _ => True) y) impls found ∧
        definitions = found.filterMap id := by
  have hfound := Calm.mapM (P := fun y id o => r.Contributes s method visible (fun _ => True) y id o)
    (fun hq h => h.quiet hq) (fun id (_ : id ∈ impls) => Resolver.calm_definitionOf? hself)
  apply hfound.bind
  intro y found _ hall
  exact .pure fun z hz => ⟨found, hall.imp fun id o h => h.quiet hz, rfl⟩

/-- What is found for the kept elements of a list is what is found for all of them
and passes, if nothing passes for the others. -/
theorem filterMap_eq_of_kept {α β : Type} {keep : α → Bool} {pass : β → Bool}
    {A B : α → Option β → Prop} {xs : List α} {found all : List (Option β)}
    (hkept : ∀ a, keep a = true → ∀ o o', A a o → B a o' → o = o'.filter pass)
    (hleft : ∀ a, keep a = false → ∀ o, B a o → o.filter pass = none)
    (hfound : List.Forall₂ A (xs.filter keep) found) (hall : List.Forall₂ B xs all) :
    found.filterMap id = (all.filterMap id).filter pass := by
  induction hall generalizing found with
  | nil =>
      cases hfound
      rfl
  | @cons a o' xs all ho' _ ih =>
      have hcons : ((o' :: all).filterMap id).filter pass =
          (o'.filter pass).toList ++ (all.filterMap id).filter pass := by
        cases o' with
        | none => rfl
        | some b => by_cases hb : pass b <;> simp [hb, Option.filter]
      rw [hcons]
      by_cases hkeep : keep a = true
      · rw [List.filter_cons_of_pos hkeep] at hfound
        cases hfound with
        | @cons _ o _ found ho hrest =>
            rw [← hkept a hkeep o o' ho ho', ← ih hrest]
            cases o <;> rfl
      · rw [List.filter_cons_of_neg hkeep] at hfound
        rw [hleft a (by simpa using hkeep) o' ho']
        exact ih hfound

/-- An impl that is asked gives its definition if that applies. -/
theorem Resolver.Contributes.eq_filter {id : ImplId} {o o' : Option Definition}
    (ho : r.Contributes s method visible (·.Reaches s steps) y id o)
    (ho' : r.Contributes s method visible (fun _ => True) z id o') (hs : s.Sound)
    (hself : r.SelfFixed s) (hsteps : ∀ step ∈ steps, s.Expanded step.ty) (hy : Quiet s y)
    (hz : Quiet y z) : o = o'.filter (r.applies z steps) := by
  unfold Contributes at ho ho'
  cases hv : r.provides? method visible id with
  | none =>
      simp only [hv] at ho ho'
      rw [ho, ho']
      rfl
  | some v =>
      simp only [hv, true_and, not_true_eq_false, false_and, or_false] at ho ho'
      obtain ⟨definition, hdefines, ho⟩ := ho
      obtain ⟨definition', hdefines', rfl⟩ := ho'
      obtain rfl : definition = definition' :=
        (hdefines.quiet hz).unique hdefines' hz.finish.wellFormed
      have happlies := hdefines'.applies_iff hs (hy.trans hz) (provides?_some hv) hself hsteps
      rcases ho with ⟨hreaches, rfl⟩ | ⟨hreaches, rfl⟩
      · simp [Option.filter, happlies.mpr hreaches]
      · simp [Option.filter, mt happlies.mp hreaches]

/-- The definition of an impl that reaches no step does not apply. -/
theorem Resolver.Contributes.filter_eq_none {id : ImplId} {o : Option Definition}
    (ho : r.Contributes s method visible (fun _ => True) z id o) (hs : s.Sound)
    (hself : r.SelfFixed s) (hsteps : ∀ step ∈ steps, s.Expanded step.ty) (hz : Quiet s z)
    (hnot : ∀ v, r.provides? method visible id = some v → ¬ v.Reaches s steps) :
    o.filter (r.applies z steps) = none := by
  unfold Contributes at ho
  cases hv : r.provides? method visible id with
  | none =>
      simp only [hv] at ho
      rw [ho]
      rfl
  | some v =>
      simp only [hv, true_and, not_true_eq_false, false_and, or_false] at ho
      obtain ⟨definition, hdefines, rfl⟩ := ho
      have happlies := hdefines.applies_iff hs hz (provides?_some hv) hself hsteps
      simp [Option.filter, mt happlies.mp (hnot v hv)]

/-- A head that is sought is sought after quiet work. -/
theorem Sought.quiet {head? : Option Head} (h : Sought s steps head?) (hq : Quiet s y)
    (hsteps : ∀ step ∈ steps, s.Has step.ty) : Sought y steps head? := by
  refine h.imp_right (Or.imp_right ?_)
  intro hex
  obtain ⟨step, hstep, hcase⟩ := hex
  have hhead : y.head? step.ty = s.head? step.ty := by
    rw [hq.finish.head?_eq, hq.start.head?_eq, hq.meaning_eq (hsteps step hstep)]
  exact ⟨step, hstep, hhead ▸ hcase⟩

end Scanning

namespace Stepping

variable {d : Declarations} {settings : Settings} {bounds : Bounds} {s x : TypeStore}
  {first : TypeId} {chain : List TypeId} {last? : Option TypeId}

/-- **Gathering is scanning all impls** and keeping what applies. -/
theorem gather_eq_scan (h : Stepping d s x first chain last?) (hs : x.Sound)
    (hself : (d.resolver settings bounds).SelfFixed x) (hindex : d.Indexed x)
    (hvalues : d.UnsizesToValues s)
    (hsteps : ∀ step ∈ steps chain last?, ¬ (x.meaning step.ty).HasError)
    (herror : ∀ {id decl}, d.impl? id = some decl → ¬ (x.written decl.self).HasError)
    (method : Symbol) (visible : List TraitId) :
    let r := d.resolver settings bounds
    let own := (r.gatherOffers method (steps chain last?)).run x
    let g := (r.gather method (steps chain last?) visible).run x
    let all := (r.scan d.allImpls method visible).run g.2
    g.1 = .ofDefinitions (own.1 ++ all.1.filter (r.applies all.2 (steps chain last?))) := by
  classical
  intro r own g all
  obtain ⟨hqo, hqg, -, found, hfound, hg⟩ :=
    Resolver.gather_run hs hself h.all_expanded method visible
  obtain ⟨hqa, found', hfound', hall⟩ := calm_scan hself d.allImpls method visible g.2
    (hqo.trans hqg)
  rw [hg, hall]
  rw [hindex.relevantImpls_eq] at hfound
  have hqx := hqo.trans hqg
  have hkept : found.filterMap id =
      (found'.filterMap id).filter (r.applies all.2 (steps chain last?)) := by
    refine filterMap_eq_of_kept (fun id _ o o' ho ho' => ?_) (fun id hleft o ho => ?_) hfound hfound'
    · exact ho.eq_filter ho' hs hself h.all_expanded hqx hqa
    · apply ho.filter_eq_none hs hself h.all_expanded (hqx.trans hqa)
      intro v hv hreaches
      have hdecl : d.impl? id = some v.decl := Resolver.provides?_some hv
      have hsought := h.sought_of_reaches hs.ordered hvalues hsteps (herror hdecl) hreaches
      have hlater := hsought.quiet hqo fun step hstep => (h.all_expanded step hstep).1
      exact of_decide_eq_false hleft ⟨v.decl, hdecl, hlater⟩
  rw [hkept]

end Stepping

/-- Two searches that answer alike at each element find the same. -/
theorem findSome?_eq_of_forall {α β : Type} {xs : List α} {f g : α → Option β}
    (h : ∀ a ∈ xs, f a = g a) : xs.findSome? f = xs.findSome? g := by
  induction xs with
  | nil => rfl
  | cons a xs ih =>
      rw [List.findSome?_cons, List.findSome?_cons, h a List.mem_cons_self,
        ih fun b hb => h b (List.mem_cons_of_mem _ hb)]

/-- What is let through in the end may be let through before. -/
theorem filter_filterMap_of_imp {α β : Type} {xs : List α} {first : α → Bool} {f : α → Option β}
    {pass : β → Bool} (h : ∀ a ∈ xs, ∀ b, f a = some b → pass b = true → first a = true) :
    ((xs.filter first).filterMap f).filter pass = (xs.filterMap f).filter pass := by
  rw [List.filter_filterMap, List.filter_filterMap, List.filterMap_filter]
  apply List.filterMap_congr
  intro a ha
  by_cases hfirst : first a = true
  · simp [hfirst]
  · cases hb : f a with
    | none => simp
    | some b =>
        have hpass : pass b = false := by
          simpa using fun hp => hfirst (h a ha b hb hp)
        simp [hfirst, hpass, Option.filter]

namespace Resolver

variable {r : Resolver} {s y : TypeStore} {t : TypeId} {c : Candidate} {g g' : Gathering}
  {steps : List Step}

/-- Whether a candidate accepts a type, tried alone, is the same after quiet work. -/
theorem acceptsAlone_quiet (hr : r.Within s) (hc : s.Has c.expected) (ht : s.Has t) (hq : Quiet s y)
    (p : Passing) : r.acceptsAlone y p t c = r.acceptsAlone s p t c := by
  obtain ⟨hq', hreads⟩ := hq.finish.form_reads p (hq.has ht)
  rw [hq.written_eq ht] at hreads
  exact (calm_accepts hr hc ht (hq.trans hq') hreads _ (.refl hq'.finish)).2

/-- The search depends on what matches at the places. -/
theorem search_congr (hr : r.Within s) (hq : Quiet s y) (hsteps : ∀ step ∈ steps, s.Has step.ty)
    (hg : ∀ p, ∀ c ∈ g.candidates p, s.Has c.expected) (hr' : r.Within y)
    (hg' : ∀ p, ∀ c ∈ g'.candidates p, y.Has c.expected) (hfunctions : g.functions = g'.functions)
    (hmatching : ∀ place : Place, place.In steps → r.matching s g place = r.matching y g' place)
    (method : Symbol) (receiver : TypeId) :
    ((r.search method receiver steps g).run s).1 =
      ((r.search method receiver steps g').run y).1 := by
  obtain ⟨-, hleft⟩ := calm_search hr hsteps hg method receiver s (.refl hq.start)
  obtain ⟨-, hright⟩ := calm_search hr' (fun step h => hq.has (hsteps step h)) hg' method receiver y
    (.refl hq.finish)
  rw [hleft, hright, hfunctions]
  congr 1
  refine findSome?_eq_of_forall fun place hplace => ?_
  unfold decision
  rw [hmatching place (mem_placesIn.mp hplace)]

/-- What applies on its own is let through beforehand. -/
theorem applies_of_acceptsAlone (hs : s.Sound) (hc : c.Stands s)
    (hsteps : ∀ step ∈ steps, s.Expanded step.ty) {step : Step} (hstep : step ∈ steps) {p : Passing}
    (h : r.acceptsAlone s p step.ty c = true) : r.applies s steps (.method c) = true := by
  have hmatch := (acceptsAlone_iff hs hc (hsteps step hstep) p).1 h
  refine List.any_eq_true.mpr ⟨step, hstep, List.any_eq_true.mpr ⟨p, p.mem_all, ?_⟩⟩
  exact (c.fitsAlone_iff hs hc (hsteps step hstep) p).mpr hmatch

/-- **The search is the same** among all definitions as among those that apply. -/
theorem search_eq_of_applies {own all : List Definition} (hs : s.Sound) (hq : Quiet s y)
    (hr : r.Within s) (hr' : r.Within y) (hsteps : ∀ step ∈ steps, s.Expanded step.ty)
    (hg : g = .ofDefinitions (own ++ all.filter (r.applies y steps)))
    (hgathered : ∀ p, ∀ c ∈ g.candidates p, s.Has c.expected)
    (hown : ∀ c, .method c ∈ own → y.Has c.expected) (hall : ∀ c, .method c ∈ all → c.Stands y)
    (method : Symbol) (receiver : TypeId) :
    ((r.search method receiver steps g).run s).1 =
      ((r.search method receiver steps
        { Gathering.ofDefinitions (own ++ all) with functions := g.functions }).run y).1 := by
  obtain ⟨g', hg'⟩ : ∃ g' : Gathering,
    { Gathering.ofDefinitions (own ++ all) with functions := g.functions } = g' := ⟨_, rfl⟩
  have hcandidates : ∀ p, g'.candidates p = (own ++ all).filterMap (Definition.candidate? p) := by
    intro p
    rw [← hg']
    cases p <;> rfl
  have hfunctions : g.functions = g'.functions := by rw [← hg']
  rw [hg']
  refine search_congr hr hq (fun step h => (hsteps step h).1) hgathered hr' (fun p c hc => ?_)
    hfunctions (fun place hplace => ?_) method receiver
  · rw [hcandidates] at hc
    obtain ⟨o, ho, hoc⟩ := List.mem_filterMap.mp hc
    obtain rfl := Definition.eq_of_candidate? hoc
    exact (List.mem_append.mp ho).elim (hown c) fun h => (hall c h).has
  · have hstep : place.step ∈ steps := List.mem_of_getElem? hplace
    unfold matching
    have hsame : ∀ c ∈ g.candidates place.precedence,
        r.acceptsAlone s place.passing place.step.ty c =
          r.acceptsAlone y place.passing place.step.ty c := fun c hc =>
      (acceptsAlone_quiet hr (hgathered _ c hc) (hsteps _ hstep).1 hq _).symm
    rw [List.filter_congr hsame, hcandidates, hg, Gathering.candidates_ofDefinitions,
      List.filterMap_append, List.filterMap_append, List.filter_append, List.filter_append,
      filter_filterMap_of_imp]
    intro o ho c hoc haccepts
    obtain rfl := Definition.eq_of_candidate? hoc
    exact applies_of_acceptsAlone (hs.quiet hq) (hall c ho) (fun step h => (hsteps step h).quiet hq)
      hstep haccepts

end Resolver

namespace Declarations

variable {d : Declarations} {settings : Settings} {bounds : Bounds} {s x : TypeStore}
  {receiver : TypeId} {steps : List Step}

/-- **Nothing is lost in gathering.**  In every reached store, with declared types
in which no variable is written and no error occurs, unsizings that make no
references, and a receiver without errors: for the steps of the receiver, what is
gathered is what they have by themselves, followed by the definitions of all impls,
in the order of their numbers, that apply when tried alone.  And the search finds
the same among all definitions, whether or not they apply. -/
theorem gather_complete {checkpoints : List Checkpoint} (h : Reached checkpoints s)
    (hdeclared : Declared s d) (hd : d.Closed s) (herror : d.ErrorFree s)
    (hvalues : d.UnsizesToValues s) (ht : s.Has receiver)
    (hreceiver : ¬ (s.meaning receiver).HasError)
    (hsteps : ((d.resolver settings bounds).stepsOf receiver).run s = (.ok steps, x))
    (method : Symbol) (visible : List TraitId) :
    let r := d.resolver settings bounds
    let own := (r.gatherOffers method steps).run x
    let g := (r.gather method steps visible).run x
    let all := (r.scan d.allImpls method visible).run g.2
    g.1 = .ofDefinitions (own.1 ++ all.1.filter (r.applies all.2 steps)) ∧
      ((r.search method receiver steps g.1).run g.2).1 =
        ((r.search method receiver steps
          { Gathering.ofDefinitions (own.1 ++ all.1) with functions := g.1.functions }).run all.2).1 := by
  intro r own g all
  have hs := h.sound
  obtain ⟨hq, hstepping⟩ := Resolver.stepsOf_run settings bounds hs hd (.refl hs.ordered) ht
  rw [hsteps] at hq hstepping
  obtain ⟨first, chain, last?, rfl, hstepping, hfirst⟩ := hstepping steps rfl
  have hx : x.Sound := hs.quiet hq
  have hself : r.SelfFixed x := hd.selfFixed hq
  have hindex := (hdeclared.indexed hs.wellFormed fun hdecl => (hd.self hdecl).2).quiet hd hq
  have hclean := hstepping.errorFree herror (hfirst ▸ hreceiver)
  have hgather := hstepping.gather_eq_scan hx hself hindex hvalues hclean
    (fun hdecl => by
      rw [hq.written_eq (hd.self hdecl).1]
      exact herror.self hdecl) method visible
  refine ⟨hgather, ?_⟩
  obtain ⟨hqo, hqg, hown, -⟩ := Resolver.gather_run hx hself hstepping.all_expanded method visible
  obtain ⟨hqa, found, hfound, hall⟩ := calm_scan hself d.allImpls method visible g.2
    (hqo.trans hqg)
  have hstands := Resolver.gather_stands hx hself hstepping.all_expanded method visible
  have hqx := hqo.trans hqg
  refine Resolver.search_eq_of_applies (hx.quiet hqx) hqa (hd.within (hq.trans hqx))
    (hd.within (hq.trans (hqx.trans hqa))) (fun step hstep => (hstepping.all_expanded step hstep).quiet hqx)
    hgather (fun p c hc => (hstands p c hc).1.has) (fun c hc => ?_) (fun c hc => ?_) method receiver
  · exact ((hown _ hc).quiet (hqg.trans hqa) c rfl).1.has
  · rw [hall] at hc
    obtain ⟨_, ho, rfl⟩ := List.mem_filterMap.mp hc
    obtain ⟨id, -, hcontributes⟩ := exists_of_forall₂ hfound _ ho
    exact hcontributes.stands hself

/-- Of two impls, for `i32` and for `bool`, a call on `i32` keeps the ones that apply. -/
theorem gather_complete_primitive :
    let decl (p : Primitive) : ImplDecl := ⟨none, [], .ofPrimitive p, [⟨.blank, some .byValue⟩], []⟩
    let d := ((empty.addImpl new (decl .i32)).2.addImpl new (decl .bool)).2
    let r := d.resolver {} .empty
    let steps : List Step := [⟨.ofPrimitive .i32, false⟩]
    let own := (r.gatherOffers .blank steps).run new
    let g := (r.gather .blank steps []).run new
    let all := (r.scan d.allImpls .blank []).run g.2
    own.1 = [] ∧ all.1.length = 2 ∧
      g.1 = .ofDefinitions (own.1 ++ all.1.filter (r.applies all.2 steps)) := by
  intro decl d r steps own g all
  have hsteps : (r.stepsOf (.ofPrimitive .i32)).run new = (.ok steps, new) := rfl
  have hdeclared : Declared new d :=
    .impl (.impl .empty .new (.refl new) (by decide)) .new (.refl new) (by decide)
  have hwritten : ∀ {id decl'}, d.impl? id = some decl' → decl'.conditions = [] ∧
      new.Has decl'.self ∧ ∃ p ≠ Primitive.error, new.written decl'.self = .atom (.prim p) := by
    intro id decl' hdecl
    rcases impl?_addImpl.mp hdecl with hdecl | ⟨-, rfl⟩
    · rcases impl?_addImpl.mp hdecl with hdecl | ⟨-, rfl⟩
      · simp [empty, impl?] at hdecl
      · exact ⟨rfl, by decide, .i32, by decide, WellFormed.written_of_atom (by decide)⟩
    · exact ⟨rfl, by decide, .bool, by decide, WellFormed.written_of_atom (by decide)⟩
  have hd : d.Closed new :=
    { self := fun hdecl => by
        obtain ⟨-, hhas, p, -, hp⟩ := hwritten hdecl
        exact ⟨hhas, by simp [hp, Fixed]⟩
      condition := fun hdecl => by simp [(hwritten hdecl).1]
      deref := fun rule hrule => by simp [d, addImpl, empty] at hrule
      unsizing := fun rule hrule => by simp [d, addImpl, empty] at hrule }
  have herror : d.ErrorFree new :=
    { self := fun hdecl => by
        obtain ⟨-, -, p, hne, hp⟩ := hwritten hdecl
        simpa [hp, HasError, Atom.IsError] using hne
      deref := fun rule hrule => by simp [d, addImpl, empty] at hrule
      unsizing := fun rule hrule => by simp [d, addImpl, empty] at hrule }
  have hvalues : d.UnsizesToValues new := fun rule hrule => by simp [d, addImpl, empty] at hrule
  have hmeaning : new.meaning (.ofPrimitive .i32) = .atom (.prim .i32) :=
    meaning_of_atom (by rw [root_of_no_link (by decide)]; decide)
  exact ⟨rfl, rfl, (gather_complete .new hdeclared hd herror hvalues (by decide)
    (by simp [hmeaning, HasError, Atom.IsError]) hsteps .blank []).1⟩

end Declarations

end DotCall
