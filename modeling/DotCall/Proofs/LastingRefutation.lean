import DotCall.Proofs.FinerStores
import DotCall.Proofs.QuietResolution

/-!
# What is refuted stays refuted

A verdict may change from undecided to anything as inference goes on, but a refuted
obligation is refuted for good, and a candidate that does not accept a type will
never accept it.  So no candidate is given up that could apply in the end.

The argument follows the judge through a store and a finer one.  A refuted obligation
has a type that is decided, so impls are tried on both sides; an impl that fails to
match fails in the finer store, and one that matches there passes to its conditions
two stores of which the second is finer again.  Between an `all` and a `some` nothing
gets lost, since a verdict that is not refuted may turn into any other one.
-/

namespace DotCall

open TypeStore

namespace Verdict

@[simp] theorem both_eq_refuted {a b : Verdict} :
    a.both b = .refuted ↔ a = .refuted ∨ b = .refuted := by
  cases a <;> cases b <;> simp [both]

@[simp] theorem either_eq_refuted {a b : Verdict} :
    a.either b = .refuted ↔ a = .refuted ∧ b = .refuted := by
  cases a <;> cases b <;> simp [either]

@[simp] theorem isPossible_eq_false {a : Verdict} : a.isPossible = false ↔ a = .refuted := by
  simp [isPossible]

end Verdict

section Loops

variable {α : Type} (judge : α → StateM TypeStore Verdict) (a : α) (xs : List α) (s : TypeStore)

theorem allHold_cons_run :
    (allHold judge (a :: xs)).run s =
      if ((judge a).run s).1 = .refuted then (.refuted, ((judge a).run s).2)
      else
        let others := (allHold judge xs).run ((judge a).run s).2
        (((judge a).run s).1.both others.1, others.2) := by
  rw [allHold, run_bind]
  cases ((judge a).run s).1 <;> rfl

theorem someHolds_cons_run :
    (someHolds judge (a :: xs)).run s =
      if ((judge a).run s).1 = .holds then (.holds, ((judge a).run s).2)
      else
        let others := (someHolds judge xs).run ((judge a).run s).2
        (((judge a).run s).1.either others.1, others.2) := by
  rw [someHolds, run_bind]
  cases ((judge a).run s).1 <;> rfl

/-- A conjunction is refuted by its first part or by the rest, whichever is looked at. -/
theorem allHold_cons_refuted :
    ((allHold judge (a :: xs)).run s).1 = .refuted ↔ ((judge a).run s).1 = .refuted ∨
      ((allHold judge xs).run ((judge a).run s).2).1 = .refuted := by
  rw [allHold_cons_run]
  split
  · next h => simp [h]
  · simp

/-- An alternative is refuted only when each of its parts is; none is skipped on the way.
-/
theorem someHolds_cons_refuted :
    ((someHolds judge (a :: xs)).run s).1 = .refuted ↔ ((judge a).run s).1 = .refuted ∧
      ((someHolds judge xs).run ((judge a).run s).2).1 = .refuted := by
  rw [someHolds_cons_run]
  split
  · next h => simp [h]
  · simp

end Loops

/-- From `w` on, both judgements are quiet, and what is refuted on the left is refuted
on the right. -/
def TypeStore.Finer.Refutes (w : Finer) (m m' : StateM TypeStore Verdict) : Prop :=
  ∀ v, w.Leads v → Quiet v.left (m.run v.left).2 ∧ Quiet v.right (m'.run v.right).2 ∧
    ((m.run v.left).1 = .refuted → (m'.run v.right).1 = .refuted)

namespace TypeStore.Finer

variable {w : Finer} {t u : TypeId}

/-- A refutation that carries over between two stores carries over between stores that
were reached from them. -/
theorem Refutes.mono {v : Finer} {m m' : StateM TypeStore Verdict} (h : w.Refutes m m')
    (hv : w.Leads v) : v.Refutes m m' :=
  fun v' hv' => h v' (hv.trans hv')

section Loops

variable {α : Type} {judge judge' : α → StateM TypeStore Verdict} {xs : List α}

/-- A refuted conjunction stays refuted. The list is gone through in both stores at once,
and what one element leaves behind is where the next one starts. -/
theorem refutes_allHold (h : ∀ a ∈ xs, w.Refutes (judge a) (judge' a)) :
    w.Refutes (allHold judge xs) (allHold judge' xs) := by
  induction xs generalizing w with
  | nil => exact fun v _ => ⟨.refl v.leftSound.ordered, .refl v.rightSound.ordered, fun h => h⟩
  | cons a xs ih =>
      intro v hv
      obtain ⟨hq, hq', hfirst⟩ := h a List.mem_cons_self v hv
      have hv' := hv.trans (leads_quiet hq hq')
      obtain ⟨hr, hr', hrest⟩ :=
        ih (fun b hb => (h b (List.mem_cons_of_mem _ hb)).mono hv') (v.quiet hq hq') (.refl _)
      refine ⟨?_, ?_, ?_⟩
      · rw [allHold_cons_run]
        split
        · exact hq
        · exact hq.trans hr
      · rw [allHold_cons_run]
        split
        · exact hq'
        · exact hq'.trans hr'
      · rw [allHold_cons_refuted, allHold_cons_refuted]
        exact Or.imp hfirst hrest

/-- A refuted alternative stays refuted, though the finer store may find out more about
each part. -/
theorem refutes_someHolds (h : ∀ a ∈ xs, w.Refutes (judge a) (judge' a)) :
    w.Refutes (someHolds judge xs) (someHolds judge' xs) := by
  induction xs generalizing w with
  | nil => exact fun v _ => ⟨.refl v.leftSound.ordered, .refl v.rightSound.ordered, fun h => h⟩
  | cons a xs ih =>
      intro v hv
      obtain ⟨hq, hq', hfirst⟩ := h a List.mem_cons_self v hv
      have hv' := hv.trans (leads_quiet hq hq')
      obtain ⟨hr, hr', hrest⟩ :=
        ih (fun b hb => (h b (List.mem_cons_of_mem _ hb)).mono hv') (v.quiet hq hq') (.refl _)
      refine ⟨?_, ?_, ?_⟩
      · rw [someHolds_cons_run]
        split
        · exact hq
        · exact hq.trans hr
      · rw [someHolds_cons_run]
        split
        · exact hq'
        · exact hq'.trans hr'
      · rw [someHolds_cons_refuted, someHolds_cons_refuted]
        exact And.imp hfirst hrest

end Loops

/-- New variables of the one store belong to new variables of the other. -/
theorem newVars_pairs (w : Finer) (n : Nat) :
    ∃ v, w.Leads v ∧ v.left = ((newVars n).run w.left).2 ∧ v.right = ((newVars n).run w.right).2 ∧
      List.Forall₂ v.Pairs ((newVars n).run w.left).1 ((newVars n).run w.right).1 := by
  induction n generalizing w with
  | zero => exact ⟨w, .refl w, rfl, rfl, .nil⟩
  | succ n ih =>
      obtain ⟨v, hv, hl, hr, hargs⟩ := ih w.addVar
      exact ⟨v, leads_addVar.trans hv, hl, hr, .cons (hv.pairs pairs_addVar) hargs⟩

/-- **Trying a pattern on both sides.**  Its parameters are replaced by new variables and
the instance is unified with a type.  It fails on the right, or matches on both sides
and what follows sees stores of which the right one is finer again. -/
theorem Pairs.trial {α β : Type} {pattern pattern' : TypeId} (hp : w.Pairs pattern pattern')
    (h : w.Refines t u) (n : Nat) (k : List TypeId → Bool → StateM TypeStore α)
    (k' : List TypeId → Bool → StateM TypeStore β) :
    let left := do
      let args ← newVars n
      let one ← instantiate pattern args
      let matched ← unifies one t
      k args matched
    let right := do
      let args ← newVars n
      let one ← instantiate pattern' args
      let matched ← unifies one u
      k' args matched
    (∃ args' y, right.run w.right = (k' args' false).run y) ∨
      ∃ v args args', w.Leads v ∧ List.Forall₂ v.Pairs args args' ∧
        left.run w.left = (k args true).run v.left ∧
        right.run w.right = (k' args' true).run v.right := by
  intro left right
  obtain ⟨v, hv, hl, hr, hargs⟩ := w.newVars_pairs n
  simp only [left, right, run_bind, unifies_run, ← hl, ← hr]
  generalize ((newVars n).run w.left).1 = args at hargs ⊢
  generalize ((newVars n).run w.right).1 = args' at hargs ⊢
  obtain ⟨hq, hq', hone⟩ := Pairing.Pairs.instantiate_run (hv.pairs hp) v.leftSound.ordered
    v.rightSound.ordered hargs
  have hlater := leads_quiet hq hq'
  have hpair : (v.quiet hq hq').Pairs ((instantiate pattern args).run v.left).1
    ((instantiate pattern' args').run v.right).1 := hone
  have hrefines := (hv.trans hlater).refines h
  by_cases hok : ((unify ((instantiate pattern' args').run v.right).1 u).run
      ((instantiate pattern' args').run v.right).2).1 = .ok ()
  · have hokl : ((unify ((instantiate pattern args).run v.left).1 t).run
        ((instantiate pattern args).run v.left).2).1 = .ok () :=
      hpair.refines.unify_ok hrefines hok
    have hw := leads_unified hpair.refines hrefines hok
    refine .inr ⟨(v.quiet hq hq').unified hpair.refines hrefines hok, args, args',
      (hv.trans hlater).trans hw, hargs.imp fun _ _ hp => (hlater.trans hw).pairs hp, ?_, ?_⟩
    · rw [decide_eq_true hokl]
      rfl
    · rw [decide_eq_true hok]
      rfl
  · exact .inl ⟨args', _, by rw [decide_eq_false hok]⟩

end TypeStore.Finer

namespace Resolver

variable {r : Resolver} {w : Finer} {t u : TypeId} {traitId : TraitId}

/-- The types of all declared impls are in both stores, written alike. -/
def SharedIn (r : Resolver) (w : Finer) : Prop :=
  ∀ id decl, r.db.impl? id = some decl →
    w.Pairs decl.self decl.self ∧ ∀ c ∈ decl.conditions, w.Pairs c.ty c.ty

namespace SharedIn

/-- What the stores share is shared by the stores reached from them. -/
theorem leads (h : r.SharedIn w) {v : Finer} (hv : w.Leads v) : r.SharedIn v := by
  intro id decl hdecl
  obtain ⟨hself, hconditions⟩ := h id decl hdecl
  exact ⟨hv.pairs hself, fun c hc => hv.pairs (hconditions c hc)⟩

theorem opened (h : r.SharedIn w) : r.SharedIn w.opened := by
  intro id decl hdecl
  obtain ⟨hself, hconditions⟩ := h id decl hdecl
  exact ⟨Pairing.Pairs.congr hself rfl rfl,
    fun c hc => Pairing.Pairs.congr (hconditions c hc) rfl rfl⟩

theorem left (h : r.SharedIn w) : r.Within w.left := by
  intro id decl hdecl
  obtain ⟨hself, hconditions⟩ := h id decl hdecl
  exact ⟨hself.left, fun c hc => (hconditions c hc).left⟩

theorem right (h : r.SharedIn w) : r.Within w.right := by
  intro id decl hdecl
  obtain ⟨hself, hconditions⟩ := h id decl hdecl
  exact ⟨hself.right, fun c hc => (hconditions c hc).right⟩

end SharedIn

/-- No type refutes an obligation by itself. -/
theorem settled?_ne_refuted (s : TypeStore) : r.settled? s t traitId ≠ some .refuted := by
  unfold settled?
  split
  · simp
  split
  · simp
  · split <;> simp
  · split <;> simp
  · simp

/-- Where a type leaves an obligation to impls, it does so in a finer store. -/
theorem settled?_none (h : w.Refines t u) (hu : w.right.link? u = none)
    (hnone : r.settled? w.left t traitId = none) : r.settled? w.right u traitId = none := by
  have hv : ∀ id, w.left.node t ≠ .atom (.var id) := by
    intro id hn
    rw [settled?, hn] at hnone
    split at hnone
    · cases hnone
    · cases hnone
  unfold settled? at hnone ⊢
  rw [h.error]
  rcases h.layer hu hv with ⟨rfl, hnode⟩ | ⟨f, args, parts, hn, hm⟩
  · rwa [hnode]
  · rw [hn] at hnone
    rw [hm]
    exact hnone

/-- Refuted conditions stay refuted, given that refuted judgements do. Each condition is
instantiated in both stores, and its instances belong together. -/
theorem refutes_judgeConditions {judge judge' : TypeId → TraitId → StateM TypeStore Verdict}
    {args args' : List TypeId} {conditions : List Condition}
    (hjudge : ∀ v, w.Leads v → ∀ t u traitId, v.Refines t u →
      v.Refutes (judge t traitId) (judge' u traitId))
    (hargs : List.Forall₂ w.Pairs args args') (hc : ∀ c ∈ conditions, w.Pairs c.ty c.ty) :
    w.Refutes (judgeConditions judge args conditions)
      (judgeConditions judge' args' conditions) := by
  refine Finer.refutes_allHold fun c hmem v hv => ?_
  have hpairs : List.Forall₂ v.Pairs args args' := hargs.imp fun _ _ h => hv.pairs h
  obtain ⟨hq, hq', hty⟩ := Pairing.Pairs.instantiate_run (hv.pairs (hc c hmem))
    v.leftSound.ordered v.rightSound.ordered hpairs
  have hlater := Finer.leads_quiet hq hq'
  have hty' : (v.quiet hq hq').Pairs _ _ := hty
  have hall := Finer.refutes_allHold fun traitId (_ : traitId ∈ c.traits) =>
    hjudge (v.quiet hq hq') (hv.trans hlater) _ _ traitId hty'.refines
  obtain ⟨hr, hr', hrefuted⟩ := hall _ (.refl _)
  exact ⟨hq.trans hr, hq'.trans hr', hrefuted⟩

/-- **An impl that fails keeps failing.**  Either its self type does not match, or its
conditions are refuted; both are so in the finer store. -/
theorem judgeImpl_refuted {judge : TypeId → TraitId → StateM TypeStore Verdict}
    (hjudge : ∀ v, w.Leads v → ∀ t u traitId, v.Refines t u →
      v.Refutes (judge t traitId) (judge u traitId))
    (hr : r.SharedIn w) (h : w.Refines t u) (id : ImplId)
    (hrefuted : ((r.judgeImpl judge t id).run w.left).1 = .refuted) :
    ((r.judgeImpl judge u id).run w.right).1 = .refuted := by
  unfold judgeImpl at hrefuted ⊢
  cases hdecl : r.db.impl? id with
  | none => rfl
  | some decl =>
      obtain ⟨hself, hconditions⟩ := hr id decl hdecl
      let k : List TypeId → Bool → StateM TypeStore Verdict := fun args matched =>
        if matched then judgeConditions judge args decl.conditions else pure .refuted
      simp only [hdecl] at hrefuted ⊢
      rcases hself.trial h decl.arity k k with
        ⟨args', y, hright⟩ | ⟨v, args, args', hv, hargs, hl, hr⟩
      · exact congrArg Prod.fst hright
      · have hall := refutes_judgeConditions (fun v' hv' => hjudge v' (hv.trans hv')) hargs
          fun c hc => hv.pairs (hconditions c hc)
        refine (congrArg Prod.fst hr).trans ((hall v (.refl v)).2.2 ?_)
        exact (congrArg Prod.fst hl).symm.trans hrefuted

/-- Each impl is tried under a checkpoint of its own. -/
theorem refutes_judgeImpl (depth : Nat)
    (hjudge : ∀ {v : Finer} {t u : TypeId} {traitId : TraitId}, r.SharedIn v → v.Refines t u →
      v.Refutes (r.judgeWithin depth t traitId) (r.judgeWithin depth u traitId))
    (hr : r.SharedIn w) (h : w.Refines t u) (id : ImplId) :
    w.Refutes (tentatively (r.judgeImpl (r.judgeWithin depth) t id))
      (tentatively (r.judgeImpl (r.judgeWithin depth) u id)) := by
  intro v hv
  have hshared := hr.leads hv
  have hrefines := hv.refines h
  have hstill : ∀ {s : TypeStore} {p : TypeId}, s.Ordered → r.Within s → s.Has p →
      Quiet s ((tentatively (r.judgeImpl (r.judgeWithin depth) p id)).run s).2 :=
    fun hs hwithin hp => (still_judgeImpl (fun y p traitId hg hp =>
      still_judgeWithin depth (hwithin.grows hg) hp) hwithin hp id _ (.refl hs)).1
  refine ⟨hstill v.leftSound.ordered hshared.left hrefines.left,
    hstill v.rightSound.ordered hshared.right hrefines.right, ?_⟩
  rw [tentatively_fst, tentatively_fst]
  have hopened : ∀ x, v.opened.Leads x → ∀ p q traitId, x.Refines p q →
      x.Refutes (r.judgeWithin depth p traitId) (r.judgeWithin depth q traitId) :=
    fun x hx p q traitId hpq => hjudge (hshared.opened.leads hx) hpq
  exact judgeImpl_refuted hopened hshared.opened hrefines.opened id

/-- At depth zero only what is settled without an impl is known. -/
theorem judgeWithin_zero_run {s : TypeStore} (hs : s.Ordered) :
    (r.judgeWithin 0 t traitId).run s =
      ((r.settled? ((findRoot t).run s).2 (s.root t) traitId).getD .undecided,
        ((findRoot t).run s).2) := by
  rw [← (hs.findRoot_quiet t).1]
  rfl

/-- At a greater depth the implementors are asked in turn, each in a probe of its own. -/
theorem judgeWithin_succ_run {s : TypeStore} (hs : s.Ordered) (depth : Nat) :
    (r.judgeWithin (depth + 1) t traitId).run s =
      match r.settled? ((findRoot t).run s).2 (s.root t) traitId with
      | some v => (v, ((findRoot t).run s).2)
      | none =>
        (someHolds (fun id => tentatively (r.judgeImpl (r.judgeWithin depth) (s.root t) id))
          (r.db.implementors traitId)).run ((findRoot t).run s).2 := by
  rw [judgeWithin, run_bind, (hs.findRoot_quiet t).1, run_bind, run_get]
  cases r.settled? ((findRoot t).run s).2 (s.root t) traitId <;> rfl

/-- **Judging.**  What is refuted stays refuted in a finer store, however deep conditions
are followed. -/
theorem refutes_judgeWithin (depth : Nat) (hr : r.SharedIn w) (h : w.Refines t u) :
    w.Refutes (r.judgeWithin depth t traitId) (r.judgeWithin depth u traitId) := by
  induction depth generalizing w t u traitId with
  | zero =>
      intro v hv
      have hl := (v.leftSound.ordered.findRoot_quiet t).2
      have hr := (v.rightSound.ordered.findRoot_quiet u).2
      rw [judgeWithin_zero_run v.leftSound.ordered, judgeWithin_zero_run v.rightSound.ordered]
      refine ⟨hl, hr, fun hrefuted => ?_⟩
      dsimp only at hrefuted
      cases hsettled : r.settled? ((findRoot t).run v.left).2 (v.left.root t) traitId with
      | none => simp [hsettled] at hrefuted
      | some verdict =>
          rw [hsettled, Option.getD_some] at hrefuted
          exact absurd (hrefuted ▸ hsettled) (r.settled?_ne_refuted _)
  | succ depth ih =>
      intro v hv
      obtain ⟨-, hl⟩ := v.leftSound.ordered.findRoot_quiet t
      obtain ⟨-, hr'⟩ := v.rightSound.ordered.findRoot_quiet u
      have hlater := Finer.leads_quiet hl hr'
      have hroots := hlater.refines (hv.refines h).root
      have hshared := hr.leads (hv.trans hlater)
      have hlink : (v.quiet hl hr').right.link? (v.right.root u) = none :=
        hr'.keeps.link?_none (v.rightSound.ordered.has_root (hv.refines h).right)
          (v.rightSound.ordered.link?_root u)
      have htried := Finer.refutes_someHolds fun id (_ : id ∈ r.db.implementors traitId) =>
        refutes_judgeImpl depth (fun hs hp => ih hs hp) hshared hroots id
      obtain ⟨hql, hqr, hrefutes⟩ := htried _ (.refl _)
      rw [judgeWithin_succ_run v.leftSound.ordered, judgeWithin_succ_run v.rightSound.ordered]
      refine ⟨?_, ?_, fun hrefuted => ?_⟩
      · split
        · exact hl
        · exact hl.trans hql
      · split
        · exact hr'
        · exact hr'.trans hqr
      · cases hsettled : r.settled? ((findRoot t).run v.left).2 (v.left.root t) traitId with
        | some verdict =>
            rw [hsettled] at hrefuted
            have hverdict : verdict = .refuted := hrefuted
            exact absurd (hverdict ▸ hsettled) (r.settled?_ne_refuted _)
        | none =>
            rw [hsettled] at hrefuted
            have hnone : r.settled? ((findRoot u).run v.right).2 (v.right.root u) traitId = none :=
              settled?_none hroots hlink hsettled
            rw [hnone]
            exact hrefutes hrefuted

/-- The conditions of one impl, judged for arguments that belong together. -/
theorem refutes_judgeImplConditions (hr : r.SharedIn w) (id : ImplId) {args args' : List TypeId}
    (hargs : List.Forall₂ w.Pairs args args') :
    w.Refutes (r.judgeImplConditions id args) (r.judgeImplConditions id args') := by
  unfold judgeImplConditions
  cases hdecl : r.db.impl? id with
  | none => exact fun v _ => ⟨.refl v.leftSound.ordered, .refl v.rightSound.ordered, fun h => h⟩
  | some decl =>
      refine refutes_judgeConditions (fun v hv t u traitId h => ?_) hargs (hr id decl hdecl).2
      exact refutes_judgeWithin _ (hr.leads hv) h

/-- What trying a candidate comes to once its expected type has matched or not. -/
def afterMatch (r : Resolver) (origin : Origin) (args : List TypeId) (matched : Bool) :
    StateM TypeStore Bool :=
  if matched then
    match origin with
    | .impl id => do
      let verdict ← r.judgeImplConditions id args
      pure verdict.isPossible
    | .object _ | .bound _ => pure true
  else pure false

/-- A candidate is accepted when it matches and what is asked after the match agrees. -/
theorem accepts_eq_afterMatch (r : Resolver) (t : TypeId) (c : Candidate) :
    r.accepts t c = tentatively (do
      let args ← newVars c.arity
      let one ← instantiate c.expected args
      let matched ← unifies one t
      r.afterMatch c.origin args matched) := rfl

/-- What rejects a candidate after the match is a refuted condition or bound, and both
last. -/
theorem afterMatch_false (hr : r.SharedIn w) (origin : Origin) {args args' : List TypeId}
    (hargs : List.Forall₂ w.Pairs args args')
    (hfalse : ((r.afterMatch origin args true).run w.left).1 = false) :
    ((r.afterMatch origin args' true).run w.right).1 = false := by
  cases origin with
  | object _ => simp [afterMatch] at hfalse
  | bound _ => simp [afterMatch] at hfalse
  | impl id =>
      simp only [afterMatch, if_true, run_bind, run_pure, Verdict.isPossible_eq_false] at hfalse ⊢
      exact (refutes_judgeImplConditions hr id hargs w (.refl w)).2.2 hfalse

/-- **Trying a candidate.**  A candidate that does not accept a type does not accept it
in a finer store. -/
theorem accepts_false (hr : r.SharedIn w) {c : Candidate} (hc : w.Pairs c.expected c.expected)
    (h : w.Refines t u) (hfalse : ((r.accepts t c).run w.left).1 = false) :
    ((r.accepts u c).run w.right).1 = false := by
  rw [accepts_eq_afterMatch, tentatively_fst] at hfalse ⊢
  have hpattern : w.opened.Pairs c.expected c.expected := Pairing.Pairs.congr hc rfl rfl
  rcases hpattern.trial h.opened c.arity (r.afterMatch c.origin) (r.afterMatch c.origin) with
    ⟨args', y, hright⟩ | ⟨v, args, args', hv, hargs, hleft, hright⟩
  · exact congrArg Prod.fst hright
  · have hleft' := (congrArg Prod.fst hleft).symm.trans hfalse
    apply (congrArg Prod.fst hright).trans
    exact afterMatch_false (hr.opened.leads hv) c.origin hargs hleft'

end Resolver

namespace TypeStore

/-- What inference makes of a store: any actions on its types, unification above all,
whether it succeeds or not, and any quiet work such as judging obligations and
resolving calls. -/
inductive Progress (s : TypeStore) : TypeStore → Prop where
  | nil : Progress s s
  | act {m : TypeStore} (h : Progress s m) (a : Action) (ha : ∀ t ∈ a.types, m.Has t) :
      Progress s (a.perform.run m).2
  | quiet {m s' : TypeStore} (h : Progress s m) (hq : Quiet m s') : Progress s s'

/-- **One action** keeps the links there are. -/
theorem Action.perform_extends {s : TypeStore} (h : s.Ordered) (a : Action)
    (ha : ∀ t ∈ a.types, s.Has t) (h' : (a.perform.run s).2.Ordered) :
    Extends s (a.perform.run s).2 := by
  have hadds : ∀ n, ((intern n).run s).2.Ordered → Extends s ((intern n).run s).2 := fun n hn =>
    (Keeps.of_adds (adds_intern s n)).toExtends h hn
  have hkeeps : ∀ {s'}, Quiet s s' → Extends s s' := fun hq => hq.keeps.toExtends h hq.finish
  have hmade : ∀ (first : Nat → Binding) (mk : Nat → Atom),
      Binding.Begins s.variableCount (mk s.variableCount) (first s.variableCount) →
      Extends s ((addVariable first >>= fun id => intern (.atom (mk id))).run s).2 :=
    fun first mk hb => by
      have hadd := h.addVariable_run first mk hb
      exact hadd.keeps.toExtends h hadd.ordered
  cases a with
  | ref b t => exact hadds _ h'
  | slice t => exact hadds _ h'
  | array t length => exact hadds _ h'
  | nominal name args => exact hadds _ h'
  | object traitName => exact hadds _ h'
  | param position => exact hadds _ h'
  | var => exact hmade (.free · none) .var (.inl ⟨none, rfl, rfl⟩)
  | namedVar name => exact hmade (.free · (some name)) .var (.inl ⟨some name, rfl, rfl⟩)
  | generic name => exact hmade (fun _ => .generic name) .generic (.inr ⟨name, rfl, rfl⟩)
  | findRoot t => exact hkeeps (h.findRoot_quiet t).2
  | expand t => exact hkeeps (h.expand_run (ha t List.mem_cons_self)).1
  | instantiate t args =>
      exact hkeeps (h.instantiate_run (fun u hu => ha u (List.mem_cons_of_mem _ hu))
        (ha t List.mem_cons_self)).1
  | unify t u =>
      have hrun := h.unify_solving (ha t (by simp [types])) (ha u (by simp [types]))
      have hposed : ∀ e ∈ [Equation.mk t u .whole], s.Poses e := by
        simpa using ⟨ha t (by simp [types]), ha u (by simp [types])⟩
      exact (h.solving_binds hrun hposed).2.toExtends

/-- **Any progress** keeps the store sound and the links there are. -/
theorem Progress.sound_extends {s s' : TypeStore} (h : Progress s s') (hs : s.Sound) :
    s'.Sound ∧ Extends s s' := by
  induction h with
  | nil => exact ⟨hs, .refl s⟩
  | act _ a ha ih =>
      obtain ⟨hm, hextends⟩ := ih
      have hs' := (a.perform_sound hm ha).1
      exact ⟨hs', hextends.trans (a.perform_extends hm.ordered ha hs'.ordered) hs.ordered
        hm.ordered hs'.ordered⟩
  | quiet _ hq ih =>
      obtain ⟨hm, hextends⟩ := ih
      exact ⟨hm.quiet hq, hextends.trans (hq.keeps.toExtends hq.start hq.finish) hs.ordered
        hm.ordered hq.finish⟩

/-- A store and what inference has made of it. -/
def Finer.start {s s' : TypeStore} (hs : s.Sound) (h : Progress s s') : Finer where
  left := s
  right := s'
  pairing := { known := (· < s.variableCount), rename := fun id => id }
  leftSound := hs
  rightSound := (h.sound_extends hs).1
  injective _ _ heq := heq
  known_lt hi := ⟨hi, Nat.lt_of_lt_of_le hi (h.sound_extends hs).2.grows.count_le⟩
  allows {σ} hσ := by
    obtain ⟨hs', hextends⟩ := h.sound_extends hs
    exact ⟨σ, hextends.allows hs.ordered hs'.ordered hσ, fun _ _ => rfl⟩
  atom hn _ ht := by
    have hg := (h.sound_extends hs).2.grows
    exact ⟨hg.has ht, (hg.node_eq ht).trans hn⟩

/-- At the start every type belongs to itself. -/
theorem Finer.pairs_start {s s' : TypeStore} (hs : s.Sound) (h : Progress s s') {t : TypeId}
    (ht : s.Has t) : (start hs h).Pairs t t := by
  obtain ⟨hs', hextends⟩ := h.sound_extends hs
  refine ⟨ht, hextends.grows.has ht, fun id => hs.wellFormed.var_lt_of_written, ?_⟩
  exact (hs.wellFormed.written_grows hs'.wellFormed hextends.grows ht).trans Tree.rename_id.symm

end TypeStore

namespace Resolver

theorem Within.sharedIn {r : Resolver} {s s' : TypeStore} (hr : r.Within s) (hs : s.Sound)
    (h : Progress s s') : r.SharedIn (Finer.start hs h) := by
  intro id decl hdecl
  obtain ⟨hself, hconditions⟩ := hr id decl hdecl
  exact ⟨Finer.pairs_start hs h hself, fun c hc => Finer.pairs_start hs h (hconditions c hc)⟩

/-- **What is refuted stays refuted.**  In every reached store, an obligation that is
refuted, and a candidate that does not accept a type, stay so whatever inference does
next.  Judging and trying are themselves part of what it may do. -/
theorem refutation_lasts {r : Resolver} {checkpoints : List Checkpoint} {s : TypeStore}
    (hs : Reached checkpoints s) (hr : r.Within s) {t : TypeId} (ht : s.Has t) :
    (∀ traitId, Progress s ((r.judge t traitId).run s).2 ∧
      (((r.judge t traitId).run s).1 = .refuted →
        ∀ s', Progress s s' → ((r.judge t traitId).run s').1 = .refuted)) ∧
    ∀ c : Candidate, s.Has c.expected → Progress s ((r.accepts t c).run s).2 ∧
      (((r.accepts t c).run s).1 = false →
        ∀ s', Progress s s' → ((r.accepts t c).run s').1 = false) := by
  have hsound := hs.sound
  refine ⟨fun traitId => ⟨?_, fun hrefuted s' h => ?_⟩, fun c hc => ⟨?_, fun hfalse s' h => ?_⟩⟩
  · exact Progress.nil.quiet (still_judge hr ht s (.refl hsound.ordered)).1
  · have hrefines := (Finer.pairs_start hsound h ht).refines
    exact (refutes_judgeWithin _ (hr.sharedIn hsound h) hrefines _ (.refl _)).2.2 hrefuted
  · have hform := (hsound.ordered.form_reads .byValue ht).2
    exact Progress.nil.quiet
      (calm_accepts hr hc ht (.refl hsound.ordered) hform s (.refl hsound.ordered)).1
  · have hpairs := Finer.pairs_start hsound h ht
    exact accepts_false (hr.sharedIn hsound h) (Finer.pairs_start hsound h hc) hpairs.refines hfalse

/-- With one impl of a trait, for `i32`, the obligation is refuted for `bool`, and a
candidate that expects `i32` does not accept it.  Both is so after a variable was
made and unified with `bool`. -/
theorem refutation_lasts_primitive :
    let decl : ImplDecl := ⟨some ⟨0⟩, [], .ofPrimitive .i32, [], []⟩
    let r := (Declarations.empty.addImpl new decl).2.resolver {} .empty
    let c : Candidate :=
      ⟨.impl ⟨0⟩, .extension ⟨0⟩, .blank, .byValue, .ofPrimitive .i32, 0, .ofPrimitive .i32⟩
    let v := newVar.run new
    let s' := ((Action.unify v.1 (.ofPrimitive .bool)).perform.run v.2).2
    ((r.judge (.ofPrimitive .bool) ⟨0⟩).run s').1 = .refuted ∧
      ((r.accepts (.ofPrimitive .bool) c).run s').1 = false := by
  intro decl r c v s'
  have hr : r.Within new := by
    intro id other hother
    have hmem : other ∈ #[decl] := Array.mem_of_getElem? hother
    obtain rfl : other = decl := by simpa using hmem
    exact ⟨by decide, by simp [decl]⟩
  have himplementors : r.db.implementors ⟨0⟩ = [⟨0⟩] := by
    simp [r, Declarations.resolver, Declarations.database, Declarations.implementors,
      Declarations.addImpl, Declarations.indexUnder, Declarations.empty, decl]
  have hrefuted : ((r.judge (.ofPrimitive .bool) ⟨0⟩).run new).1 = .refuted := by
    rw [judge, show r.settings.maxNesting = 7 + 1 from rfl, judgeWithin_succ_run new_sound.ordered,
      himplementors]
    decide +kernel
  have hfalse : ((r.accepts (.ofPrimitive .bool) c).run new).1 = false := by decide +kernel
  have hprogress : Progress new s' := by
    have hvar := new_sound.ordered.newVar_run.2.has
    have hmade : Progress new v.2 := Progress.nil.act .var (by simp [Action.types])
    refine hmade.act (.unify v.1 (.ofPrimitive .bool)) ?_
    have hbool : v.2.Has (.ofPrimitive .bool) :=
      new_sound.ordered.newVar_run.1.has (by decide)
    simpa [Action.types] using ⟨hvar, hbool⟩
  obtain ⟨hjudge, haccepts⟩ := refutation_lasts .new hr (t := .ofPrimitive .bool) (by decide)
  exact ⟨(hjudge ⟨0⟩).2 hrefuted s' hprogress, (haccepts c (by decide)).2 hfalse s' hprogress⟩

end Resolver

end DotCall
