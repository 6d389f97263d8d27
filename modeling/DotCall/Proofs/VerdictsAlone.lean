import DotCall.Proofs.LastingRefutation

/-!
# Verdicts one by one

A verdict on several obligations comes from a loop that stops early and leaves new
variables and types behind.  Since each judgement is quiet and comes out the same
after any quiet work, the loop says the same as the verdicts on its members, each
judged alone on the store from before: `Verdict.all` of them where all are needed,
`Verdict.any` where one suffices.

So the verdict on an obligation is a matter of the verdicts that its impls come to
(`verdict_succ`), and that of an impl a matter of the verdicts on its conditions
after its self type has matched (`tentatively_judgeImpl`).  In what order they are asked
for makes no difference.
-/

namespace DotCall

open TypeStore Twin

namespace Verdict

/-- All of the given are needed. -/
def all (vs : List Verdict) : Verdict := vs.foldr both .holds

/-- One of the given suffices. -/
def any (vs : List Verdict) : Verdict := vs.foldr either .refuted

@[simp] theorem both_eq_holds {a b : Verdict} : a.both b = .holds ↔ a = .holds ∧ b = .holds := by
  cases a <;> cases b <;> simp [both]

@[simp] theorem either_eq_holds {a b : Verdict} :
    a.either b = .holds ↔ a = .holds ∨ b = .holds := by
  cases a <;> cases b <;> simp [either]

variable {vs ws : List Verdict}

theorem all_eq_holds : all vs = .holds ↔ ∀ v ∈ vs, v = .holds := by
  induction vs with
  | nil => simp [all]
  | cons v vs ih => simpa [all] using fun _ => ih

theorem all_eq_refuted : all vs = .refuted ↔ .refuted ∈ vs := by
  induction vs with
  | nil => simp [all]
  | cons v vs ih =>
      rw [List.mem_cons]
      exact both_eq_refuted.trans (or_congr eq_comm ih)

theorem any_eq_holds : any vs = .holds ↔ .holds ∈ vs := by
  induction vs with
  | nil => simp [any]
  | cons v vs ih =>
      rw [List.mem_cons]
      exact either_eq_holds.trans (or_congr eq_comm ih)

theorem any_eq_refuted : any vs = .refuted ↔ ∀ v ∈ vs, v = .refuted := by
  induction vs with
  | nil => simp [any]
  | cons v vs ih => simpa [any] using fun _ => ih

end Verdict

section Loops

variable {α : Type} {s : TypeStore} {judge : α → StateM TypeStore Verdict} {verdict : α → Verdict}
  {xs : List α}

/-- A conjunction is judged without regard to how its earlier parts were judged. -/
theorem calm_allHold (h : ∀ a ∈ xs, Calm s (judge a) fun _ v => v = verdict a) :
    Calm s (allHold judge xs) fun _ v => v = .all (xs.map verdict) := by
  induction xs generalizing s with
  | nil => exact .pure fun _ _ => rfl
  | cons a xs ih =>
      refine (h a List.mem_cons_self).bind fun x v hx hv => ?_
      have hrest := ih fun b hb => (h b (List.mem_cons_of_mem _ hb)).mono hx
      have hall : Verdict.all ((a :: xs).map verdict) = v.both (.all (xs.map verdict)) := by
        rw [hv]
        rfl
      rw [hall]
      cases v with
      | refuted => exact .pure fun _ _ => rfl
      | holds | undecided => exact hrest.bind fun y w _ hw => .pure fun _ _ => by rw [hw]

/-- The same for an alternative. -/
theorem calm_someHolds (h : ∀ a ∈ xs, Calm s (judge a) fun _ v => v = verdict a) :
    Calm s (someHolds judge xs) fun _ v => v = .any (xs.map verdict) := by
  induction xs generalizing s with
  | nil => exact .pure fun _ _ => rfl
  | cons a xs ih =>
      refine (h a List.mem_cons_self).bind fun x v hx hv => ?_
      have hrest := ih fun b hb => (h b (List.mem_cons_of_mem _ hb)).mono hx
      have hany : Verdict.any ((a :: xs).map verdict) = v.either (.any (xs.map verdict)) := by
        rw [hv]
        rfl
      rw [hany]
      cases v with
      | holds => exact .pure fun _ _ => rfl
      | refuted | undecided => exact hrest.bind fun y w _ hw => .pure fun _ _ => by rw [hw]

end Loops

namespace TypeStore

variable {s : TypeStore} {pattern t : TypeId}

/-- Whether a pattern matches a type, with new variables for its parameters. -/
def trial (pattern : TypeId) (n : Nat) (t : TypeId) : StateM TypeStore (List TypeId × Bool) := do
  let args ← newVars n
  let one ← instantiate pattern args
  let matched ← unifies one t
  pure (args, matched)

/-- A trial instantiates the pattern at new variables and unifies it with the type. -/
theorem trial_eq (s : TypeStore) (pattern : TypeId) (n : Nat) (t : TypeId) :
    let args := (newVars n).run s
    let e := (instantiate pattern args.1).run args.2
    let z := (unify e.1 t).run e.2
    (trial pattern n t).run s = ((args.1, decide (z.1 = .ok ())), z.2) := by
  simp only [trial, run_bind, run_pure, unifies_run]

theorem trial_works (hs : s.Ordered) (hpattern : s.Has pattern) (ht : s.Has t) (n : Nat) :
    let m := (trial pattern n t).run s
    Works s m.2 ∧ ∀ a ∈ m.1.1, m.2.Has a := by
  have halong : Along Works s (trial pattern n t) fun x m => ∀ a ∈ m.1, x.Has a := by
    refine lasting_works.bind (lasting_works.of_calm fun x _ => calm_newVars x n) ?_
    intro x args hx hargs
    have hone : Along Works x (instantiate pattern args) fun y one => y.Has one :=
      lasting_works.of_calm fun y hy => calm_instantiate
        (hy.grows.has (hx.grows.has hpattern)) fun a ha => hy.grows.has (hargs a ha)
    refine lasting_works.bind hone fun y one hy hone => ?_
    refine lasting_works.bind (along_unifies hone (hy.grows.has (hx.grows.has ht))) ?_
    intro z matched hz _
    exact lasting_works.pure fun z' hz' a ha =>
      ((hy.trans hz).trans hz').grows.has (hargs a ha)
  exact halong s (.refl hs)

/-- An answer that twins share is the one on the store from before. -/
theorem calm_of_alike {α : Type} {m : StateM TypeStore α} (hs : s.Ordered) (hstill : Still s m)
    (h : ∀ x (hx : Quiet s x), Alike (Twin.start (.refl hs) hx) m m fun _ a b => a = b) :
    Calm s m fun _ a => a = (m.run s).1 := by
  intro x hx
  obtain ⟨-, -, -, -, hsame⟩ := h x hx _ (.refl _)
  exact ⟨(hstill x hx).1, hsame.symm⟩

end TypeStore

namespace Resolver

variable {r : Resolver} {s : TypeStore} {t : TypeId} {traitId : TraitId} {depth : Nat}
  {args : List TypeId}

/-- A trial under a checkpoint: what was declared, and the new arguments, can be read after it. -/
theorem Within.opened_trial {pattern : TypeId} (hr : r.Within s) (hs : s.Ordered)
    (hpattern : s.Has pattern) (ht : s.Has t) (n : Nat) :
    let m := (trial pattern n t).run s.opened
    Works s.opened m.2 ∧ r.Within m.2 ∧ ∀ a ∈ m.1.1, m.2.Has a := by
  have hopened : r.Within s.opened := hr
  have hpattern' : s.opened.Has pattern := hpattern
  have ht' : s.opened.Has t := ht
  obtain ⟨hworks, hargs⟩ := trial_works hs.opened hpattern' ht' n
  exact ⟨hworks, hopened.grows hworks.grows, hargs⟩

/-- The verdict on an obligation judged alone on the store `s`. -/
def verdict (r : Resolver) (s : TypeStore) (depth : Nat) (t : TypeId) (traitId : TraitId) :
    Verdict :=
  ((r.judgeWithin depth t traitId).run s).1

/-- **Judging is a function of the meaning of the store**: it answers what is judged
alone, and is calm. -/
theorem calm_judgeWithin (hs : s.Ordered) (hr : r.Within s) (ht : s.Has t) (depth : Nat)
    (traitId : TraitId) :
    Calm s (r.judgeWithin depth t traitId) fun _ v => v = r.verdict s depth t traitId := by
  apply calm_of_alike hs (still_judgeWithin depth hr ht)
  intro x hx
  exact alike_judgeWithin depth (hr.pairedIn (.refl hs) hx) (pairs_self (.refl hs) hx ht)

/-- The verdict on a condition, with the given arguments for the impl's parameters,
judged alone on the store `s`. -/
def conditionVerdict (r : Resolver) (s : TypeStore) (depth : Nat) (args : List TypeId)
    (c : Condition) : Verdict :=
  let ty := (instantiate c.ty args).run s
  .all (c.traits.map (r.verdict ty.2 depth ty.1))

/-- **Conditions one by one.** -/
theorem calm_judgeConditions (hs : s.Ordered) (hr : r.Within s) (hargs : ∀ a ∈ args, s.Has a)
    {conditions : List Condition} (hc : ∀ c ∈ conditions, s.Has c.ty) (depth : Nat) :
    Calm s (judgeConditions (r.judgeWithin depth) args conditions) fun _ v =>
      v = .all (conditions.map (r.conditionVerdict s depth args)) := by
  apply calm_allHold
  intro c hmem
  obtain ⟨hquiet, hty⟩ := calm_instantiate (hc c hmem) hargs s (.refl hs)
  have hanswer : ((instantiate c.ty args >>= fun ty =>
      allHold (r.judgeWithin depth ty) c.traits).run s).1 = r.conditionVerdict s depth args c := by
    have hcalm := calm_allHold fun traitId (_ : traitId ∈ c.traits) =>
      calm_judgeWithin hquiet.finish (hr.grows hquiet.grows) hty depth traitId
    rw [run_bind]
    exact (hcalm _ (.refl hquiet.finish)).2
  rw [← hanswer]
  apply calm_of_alike hs
  · refine (calm_instantiate (hc c hmem) hargs).bind fun x ty hx hty => ?_
    exact still_allHold fun traitId _ => still_judgeWithin depth (hr.grows hx.grows) hty
  · intro x hx
    have hpaired := hr.pairedIn (.refl hs) hx
    have hargs' : List.Forall₂ (Twin.start (.refl hs) hx).Pairs args args :=
      List.forall₂_same.mpr fun a ha => pairs_self (.refl hs) hx (hargs a ha)
    refine ((pairs_self (.refl hs) hx (hc c hmem)).alike_instantiate hargs').bind ?_
    intro v ty ty' hv hty
    exact alike_allHold fun traitId _ => alike_judgeWithin depth (hpaired.leads hv) hty

/-- The verdict that an impl comes to, tried alone on the store `s`. -/
def implVerdict (r : Resolver) (s : TypeStore) (depth : Nat) (t : TypeId) (id : ImplId) :
    Verdict :=
  match r.db.impl? id with
  | none => .refuted
  | some decl =>
    let m := (trial decl.self decl.arity t).run s.opened
    if m.1.2 then .all (decl.conditions.map (r.conditionVerdict m.2 depth m.1.1)) else .refuted

/-- An impl that is tried in a probe is judged as it would be alone. -/
theorem tentatively_judgeImpl (hs : s.Ordered) (hr : r.Within s) (ht : s.Has t) (depth : Nat)
    (id : ImplId) :
    ((tentatively (r.judgeImpl (r.judgeWithin depth) t id)).run s).1 =
      r.implVerdict s depth t id := by
  rw [tentatively_fst]
  unfold judgeImpl implVerdict
  cases hdecl : r.db.impl? id with
  | none => rfl
  | some decl =>
      obtain ⟨hself, hconditions⟩ := hr id decl hdecl
      obtain ⟨hworks, hwithin, hargs⟩ := hr.opened_trial hs hself ht decl.arity
      -- the impl is judged as its trial comes out
      have hrun : (do
          let args ← newVars decl.arity
          let self ← instantiate decl.self args
          if ← unifies self t then
            judgeConditions (r.judgeWithin depth) args decl.conditions
          else pure .refuted : StateM TypeStore Verdict) =
        (do
          let m ← trial decl.self decl.arity t
          if m.2 then judgeConditions (r.judgeWithin depth) m.1 decl.conditions
          else pure .refuted) := by
        simp [trial]
      simp only [hrun, run_bind]
      cases ((trial decl.self decl.arity t).run s.opened).1.2 with
      | false => rfl
      | true =>
          have hcalm := calm_judgeConditions hworks.finish hwithin hargs
            (fun c hc => hworks.grows.has (hconditions c hc)) depth
          exact (hcalm _ (.refl hworks.finish)).2

theorem calm_tentatively_judgeImpl (hs : s.Ordered) (hr : r.Within s) (ht : s.Has t) (depth : Nat)
    (id : ImplId) :
    Calm s (tentatively (r.judgeImpl (r.judgeWithin depth) t id)) fun _ v =>
      v = r.implVerdict s depth t id := by
  rw [← tentatively_judgeImpl hs hr ht depth id]
  apply calm_of_alike hs
  · exact still_judgeImpl (fun x u traitId hx hu => still_judgeWithin depth (hr.grows hx) hu) hr ht
      id
  · intro x hx
    have hpaired := hr.pairedIn (.refl hs) hx
    refine (Steady.tentatively_eq fun v hv => ?_).alike
    refine alike_judgeImpl (fun v' hv' t u traitId htu => ?_) (hpaired.leads hv).opened
      (hv.pairs (pairs_self (.refl hs) hx ht)).opened id
    exact alike_judgeWithin depth ((hpaired.leads hv).opened.leads hv') htu

/-- Reading the root of a type changes nothing of what types say by themselves. -/
theorem settled?_quiet {x : TypeStore} (hx : Quiet s x) (ht : s.Has t) :
    r.settled? x t traitId = r.settled? s t traitId := by
  unfold settled?
  rw [hx.grows.summary_eq ht, hx.node_eq ht]

/-- Without depth the verdict is what is settled, or none. -/
theorem verdict_zero (hs : s.Ordered) (ht : s.Has t) :
    r.verdict s 0 t traitId = (r.settled? s (s.root t) traitId).getD .undecided := by
  unfold verdict
  rw [judgeWithin_zero_run hs, settled?_quiet (hs.findRoot_quiet t).2 (hs.has_root ht)]

/-- **An obligation is judged by its impls, one by one.** -/
theorem verdict_succ (hs : s.Ordered) (hr : r.Within s) (ht : s.Has t) :
    r.verdict s (depth + 1) t traitId =
      (r.settled? s (s.root t) traitId).getD
        (.any ((r.db.implementors traitId).map (r.implVerdict s depth (s.root t)))) := by
  have hroot := hs.has_root ht
  have hquiet := (hs.findRoot_quiet t).2
  unfold verdict
  rw [judgeWithin_succ_run hs, settled?_quiet hquiet hroot]
  cases r.settled? s (s.root t) traitId with
  | some v => rfl
  | none =>
      have hcalm := calm_someHolds fun id (_ : id ∈ r.db.implementors traitId) =>
        calm_tentatively_judgeImpl hs hr hroot depth id
      exact (hcalm _ hquiet).2

/-- The conditions of an impl are judged one by one, each in the store before. -/
theorem judgeImplConditions_fst (hs : s.Ordered) (hr : r.Within s) (hargs : ∀ a ∈ args, s.Has a)
    {id : ImplId} :
    ((r.judgeImplConditions id args).run s).1 =
      match r.db.impl? id with
      | none => .refuted
      | some decl =>
        .all (decl.conditions.map (r.conditionVerdict s r.settings.maxNesting args)) := by
  unfold judgeImplConditions
  cases hdecl : r.db.impl? id with
  | none => rfl
  | some decl =>
      exact (calm_judgeConditions hs hr hargs (hr id decl hdecl).2 _ s (.refl hs)).2

/-- Trying a candidate comes down to what follows its match. -/
theorem accepts_fst (r : Resolver) (s : TypeStore) (t : TypeId) (c : Candidate) :
    ((r.accepts t c).run s).1 =
      let m := (trial c.expected c.arity t).run s.opened
      ((r.afterMatch c.origin m.1.1 m.1.2).run m.2).1 := by
  rw [accepts_eq_afterMatch, tentatively_fst]
  simp only [trial, run_bind, run_pure]

end Resolver

end DotCall
