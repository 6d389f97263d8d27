import DotCall.Call.Search
import DotCall.Proofs.TwinUnification

/-!
# The same work on twins

What is done on both of two twin stores comes out alike: new variables, instances
and roots are again written alike, and whatever answers with a truth value or a
verdict gives the same answer.  The main step is unification, which compares,
links and fails on both sides at the same places.

It follows that trying a candidate gives the same answer before and after any
quiet work, whatever variables were used up and whatever types were made.
-/

namespace DotCall

namespace TypeStore

open Twin

/-- From `w` on, at whatever twins work has led to, the two actions lead to
twins, and their answers satisfy `Q` there. -/
def Alike {α β : Type} (w : Twin) (m : StateM TypeStore α) (m' : StateM TypeStore β)
    (Q : Twin → α → β → Prop) : Prop :=
  ∀ v, w.Leads v → ∃ v', v.Leads v' ∧ v'.left = (m.run v.left).2 ∧
    v'.right = (m'.run v.right).2 ∧ Q v' (m.run v.left).1 (m'.run v.right).1

namespace Alike

variable {α β γ δ : Type} {w v : Twin} {m : StateM TypeStore α} {m' : StateM TypeStore β}
  {Q : Twin → α → β → Prop} {R : Twin → γ → δ → Prop}

/-- What runs alike on twins runs alike on those that they lead to. -/
theorem mono (h : Alike w m m' Q) (hv : w.Leads v) : Alike v m m' Q :=
  fun u hu => h u (hv.trans hu)

theorem pure {a : α} {b : β} (h : ∀ v, w.Leads v → Q v a b) : Alike w (pure a) (pure b) Q :=
  fun v hv => ⟨v, .refl v, rfl, rfl, h v hv⟩

theorem get : Alike w get get fun v x y => x = v.left ∧ y = v.right :=
  fun v _ => ⟨v, .refl v, rfl, rfl, rfl, rfl⟩

/-- Actions that run alike, followed by such actions for paired answers, run alike. -/
theorem bind {f : α → StateM TypeStore γ} {f' : β → StateM TypeStore δ} (hm : Alike w m m' Q)
    (hf : ∀ v a b, w.Leads v → Q v a b → Alike v (f a) (f' b) R) :
    Alike w (m >>= f) (m' >>= f') R := by
  intro v hv
  obtain ⟨v₁, hv₁, hl, hr, hQ⟩ := hm v hv
  obtain ⟨v₂, hv₂, hl', hr', hR⟩ := hf v₁ _ _ (hv.trans hv₁) hQ v₁ (.refl v₁)
  rw [hl] at hl' hR
  rw [hr] at hr' hR
  exact ⟨v₂, hv₁.trans hv₂, hl', hr', hR⟩

end Alike

/-- Moreover both actions are quiet. -/
def Steady {α β : Type} (w : Twin) (m : StateM TypeStore α) (m' : StateM TypeStore β)
    (Q : Twin → α → β → Prop) : Prop :=
  ∀ v, w.Leads v → ∃ v', v.Leads v' ∧ Quiet v.left v'.left ∧ Quiet v.right v'.right ∧
    v'.left = (m.run v.left).2 ∧ v'.right = (m'.run v.right).2 ∧
    Q v' (m.run v.left).1 (m'.run v.right).1

namespace Steady

variable {α β γ δ : Type} {w v : Twin} {m : StateM TypeStore α} {m' : StateM TypeStore β}
  {Q : Twin → α → β → Prop} {R : Twin → γ → δ → Prop}

/-- What runs steadily runs alike. -/
theorem alike (h : Steady w m m' Q) : Alike w m m' Q := by
  intro v hv
  obtain ⟨v', hv', -, -, hend⟩ := h v hv
  exact ⟨v', hv', hend⟩

/-- What runs steadily on twins does so on those that they lead to. -/
theorem mono (h : Steady w m m' Q) (hv : w.Leads v) : Steady v m m' Q :=
  fun u hu => h u (hv.trans hu)

theorem pure {a : α} {b : β} (h : ∀ v, w.Leads v → Q v a b) : Steady w (pure a) (pure b) Q :=
  fun v hv => ⟨v, .refl v, .refl v.leftOrdered, .refl v.rightOrdered, rfl, rfl, h v hv⟩

/-- Steady actions in sequence are steady. -/
theorem bind {f : α → StateM TypeStore γ} {f' : β → StateM TypeStore δ} (hm : Steady w m m' Q)
    (hf : ∀ v a b, w.Leads v → Q v a b → Steady v (f a) (f' b) R) :
    Steady w (m >>= f) (m' >>= f') R := by
  intro v hv
  obtain ⟨v₁, hv₁, hql, hqr, hl, hr, hQ⟩ := hm v hv
  obtain ⟨v₂, hv₂, hql', hqr', hl', hr', hR⟩ := hf v₁ _ _ (hv.trans hv₁) hQ v₁ (.refl v₁)
  rw [hl] at hl' hR
  rw [hr] at hr' hR
  exact ⟨v₂, hv₁.trans hv₂, hql.trans hql', hqr.trans hqr', hl', hr', hR⟩

/-- Looking at the store. -/
theorem get_bind {f : TypeStore → StateM TypeStore α} {f' : TypeStore → StateM TypeStore β}
    (h : ∀ v, w.Leads v → Steady v (f v.left) (f' v.right) Q) :
    Steady w (get >>= f) (get >>= f') Q :=
  fun v hv => h v hv v (.refl v)

/-- **Trying is steady.**  What is known of the answers has to be about types, which
stay when assignments are reverted. -/
theorem tentatively
    (last : ∀ {v v' : Twin} {a b}, v'.left.entries = v.left.entries →
      v'.right.entries = v.right.entries → v'.pairing = v.pairing → Q v a b → Q v' a b)
    (h : ∀ v, w.Leads v → Alike v.opened m m' Q) :
    Steady w (tentatively m) (TypeStore.tentatively m') Q := by
  intro v hv
  obtain ⟨v', hv', hl, hr, hQ⟩ := h v hv v.opened (.refl _)
  have hwork : Works v.left.opened (m.run v.left.opened).2 := hl ▸ hv'.left
  have hwork' : Works v.right.opened (m'.run v.right.opened).2 := hr ▸ hv'.right
  obtain ⟨hq, hcount⟩ := hwork.tentatively_count v.leftOrdered
  obtain ⟨hq', hcount'⟩ := hwork'.tentatively_count v.rightOrdered
  replace hcount := hcount.trans (congrArg variableCount hl.symm)
  replace hcount' := hcount'.trans (congrArg variableCount hr.symm)
  refine ⟨v.recalled hv' hq hq' hcount hcount', leads_recalled hv' hq hq' hcount hcount', hq, hq',
    rfl, rfl, ?_⟩
  rw [tentatively_fst, tentatively_fst]
  refine last ?_ ?_ (Eq.refl v'.pairing) hQ
  · exact (tentatively_entries m v.left).trans (congrArg entries hl.symm)
  · exact (tentatively_entries m' v.right).trans (congrArg entries hr.symm)

/-- Trying gives the same answer where the actions do. -/
theorem tentatively_eq {n n' : StateM TypeStore α}
    (h : ∀ v, w.Leads v → Alike v.opened n n' fun _ a b => a = b) :
    Steady w (TypeStore.tentatively n) (TypeStore.tentatively n') fun _ a b => a = b :=
  tentatively (fun _ _ _ heq => heq) h

end Steady

namespace Twin

variable {w : Twin} {t u : TypeId}

/-- New variables are paired one by one. -/
theorem alike_newVars (w : Twin) (n : Nat) :
    Alike w (newVars n) (newVars n) fun v ts us => List.Forall₂ v.Pairs ts us := by
  induction n generalizing w with
  | zero => exact .pure fun _ _ => .nil
  | succ n ih =>
      have hfirst : Alike w newVar newVar fun v t u => v.Pairs t u :=
        fun v _ => ⟨v.addVar, leads_addVar, rfl, rfl, pairs_addVar⟩
      refine hfirst.bind fun v t u _ ht => ?_
      refine (ih v).bind fun v₁ ts us hv₁ hts => ?_
      refine .pure fun v₂ hv₂ => .cons ((hv₁.trans hv₂).pairs ht) ?_
      exact hts.imp fun _ _ hp => hv₂.pairs hp

/-- Quiet actions whose answers are written alike. -/
theorem steady_of_quiet {m m' : StateM TypeStore TypeId}
    (h : ∀ v, w.Leads v → Quiet v.left (m.run v.left).2 ∧ Quiet v.right (m'.run v.right).2 ∧
      v.pairing.Pairs (m.run v.left).2 (m'.run v.right).2 (m.run v.left).1 (m'.run v.right).1) :
    Steady w m m' fun v t u => v.Pairs t u := by
  intro v hv
  obtain ⟨hq, hq', hpairs⟩ := h v hv
  exact ⟨v.quiet hq hq', leads_quiet hq hq', hq, hq', rfl, rfl, hpairs⟩

/-- The roots of paired types are paired, and no variable is made. -/
theorem Pairs.steady_findRoot (h : w.Pairs t u) :
    Steady w (findRoot t) (findRoot u) fun v t u => v.Pairs t u := by
  refine steady_of_quiet fun v hv => ?_
  obtain ⟨hroot, hq⟩ := v.leftOrdered.findRoot_quiet t
  obtain ⟨hroot', hq'⟩ := v.rightOrdered.findRoot_quiet u
  refine ⟨hq, hq', ?_⟩
  rw [hroot, hroot']
  exact (hv.pairs h).root.grow hq.toWorks hq'.toWorks (fun hi => hi) fun _ => rfl

/-- Instances of paired types with paired arguments are paired. -/
theorem Pairs.alike_instantiate (h : w.Pairs t u) {args args' : List TypeId}
    (hargs : List.Forall₂ w.Pairs args args') :
    Alike w (instantiate t args) (instantiate u args') fun v t u => v.Pairs t u := by
  refine (steady_of_quiet fun v hv => ?_).alike
  have hpairs : List.Forall₂ v.Pairs args args' := hargs.imp fun _ _ hp => hv.pairs hp
  exact Pairing.Pairs.instantiate_run (hv.pairs h) v.leftOrdered v.rightOrdered hpairs

/-- Whether paired types unify is answered alike. -/
theorem Pairs.alike_unifies (h : w.Pairs t u) {t' u' : TypeId} (h' : w.Pairs t' u') :
    Alike w (unifies t t') (unifies u u') fun _ a b => a = b := by
  intro v hv
  obtain ⟨v', hv', hl, hr, hok⟩ := unify_alike (hv.pairs h) (hv.pairs h')
  refine ⟨v', hv', ?_, ?_, ?_⟩
  · rw [unifies_run, hl]
  · rw [unifies_run, hr]
  · simp only [unifies_run, decide_eq_decide]
    exact hok

end Twin

end TypeStore

open TypeStore Twin

section Loops

variable {α : Type} {w : Twin} {judge judge' : α → StateM TypeStore Verdict} {xs : List α}

/-- Questions that are answered alike are answered alike all together. -/
theorem alike_allHold (h : ∀ x ∈ xs, Alike w (judge x) (judge' x) fun _ a b => a = b) :
    Alike w (allHold judge xs) (allHold judge' xs) fun _ a b => a = b := by
  induction xs generalizing w with
  | nil => exact .pure fun _ _ => rfl
  | cons x xs ih =>
      refine (h x List.mem_cons_self).bind fun v a b hv hab => ?_
      subst hab
      have hrest := ih fun y hy => (h y (List.mem_cons_of_mem _ hy)).mono hv
      cases a with
      | refuted => exact .pure fun _ _ => rfl
      | holds | undecided =>
          exact hrest.bind fun v' a b _ hab => .pure fun _ _ => by rw [hab]

/-- So they are when one suffices. -/
theorem alike_someHolds (h : ∀ x ∈ xs, Alike w (judge x) (judge' x) fun _ a b => a = b) :
    Alike w (someHolds judge xs) (someHolds judge' xs) fun _ a b => a = b := by
  induction xs generalizing w with
  | nil => exact .pure fun _ _ => rfl
  | cons x xs ih =>
      refine (h x List.mem_cons_self).bind fun v a b hv hab => ?_
      subst hab
      have hrest := ih fun y hy => (h y (List.mem_cons_of_mem _ hy)).mono hv
      cases a with
      | holds => exact .pure fun _ _ => rfl
      | refuted | undecided =>
          exact hrest.bind fun v' a b _ hab => .pure fun _ _ => by rw [hab]

end Loops

/-- The types of a declared impl are in both stores, written alike. -/
structure ImplDecl.PairedIn (decl : ImplDecl) (w : Twin) : Prop where
  self : w.Pairs decl.self decl.self
  conditions : ∀ c ∈ decl.conditions, w.Pairs c.ty c.ty

namespace Resolver

variable {r : Resolver} {w : Twin} {t u : TypeId} {traitId : TraitId}

/-- The types of all declared impls are in both stores, written alike. -/
def PairedIn (r : Resolver) (w : Twin) : Prop :=
  ∀ id decl, r.db.impl? id = some decl → decl.PairedIn w

/-- Declared types stay paired. -/
theorem PairedIn.leads (h : r.PairedIn w) {v : Twin} (hv : w.Leads v) : r.PairedIn v := by
  intro id decl hdecl
  obtain ⟨hself, hconditions⟩ := h id decl hdecl
  exact ⟨hv.pairs hself, fun c hc => hv.pairs (hconditions c hc)⟩

/-- They stay paired under a new checkpoint. -/
theorem PairedIn.opened (h : r.PairedIn w) : r.PairedIn w.opened := by
  intro id decl hdecl
  obtain ⟨hself, hconditions⟩ := h id decl hdecl
  exact ⟨hself.opened, fun c hc => (hconditions c hc).opened⟩

/-- What types that are written alike say by themselves is the same. -/
theorem settled?_alike (h : w.Pairs t u) :
    r.settled? w.left t traitId = r.settled? w.right u traitId := by
  unfold settled?
  rw [h.hasError_eq]
  split
  · rfl
  have hnode := h.node
  have hsame := fun a => h.eq_of_atom (a := a)
  generalize w.left.node t = n at hnode hsame
  generalize w.right.node u = n' at hnode
  cases hnode with
  | @atom a hne => rw [hsame a rfl hne]
  | var _ => rfl
  | app _ => rfl

/-- Conditions are judged alike when each obligation is, one layer less deep. -/
theorem alike_judgeConditions {judge judge' : TypeId → TraitId → StateM TypeStore Verdict}
    {args args' : List TypeId} {conditions : List Condition}
    (hjudge : ∀ v, w.Leads v → ∀ t u traitId, v.Pairs t u →
      Alike v (judge t traitId) (judge' u traitId) fun _ a b => a = b)
    (hargs : List.Forall₂ w.Pairs args args') (hc : ∀ c ∈ conditions, w.Pairs c.ty c.ty) :
    Alike w (judgeConditions judge args conditions) (judgeConditions judge' args' conditions)
      fun _ a b => a = b := by
  refine alike_allHold fun c hmem => ?_
  refine ((hc c hmem).alike_instantiate hargs).bind fun v t u hv htu => ?_
  refine alike_allHold fun traitId _ => ?_
  exact hjudge v hv t u traitId htu

/-- An impl judges types that are written alike in the same way. -/
theorem alike_judgeImpl {judge judge' : TypeId → TraitId → StateM TypeStore Verdict}
    (hjudge : ∀ v, w.Leads v → ∀ t u traitId, v.Pairs t u →
      Alike v (judge t traitId) (judge' u traitId) fun _ a b => a = b)
    (hr : r.PairedIn w) (h : w.Pairs t u) (id : ImplId) :
    Alike w (r.judgeImpl judge t id) (r.judgeImpl judge' u id) fun _ a b => a = b := by
  unfold judgeImpl
  split
  · exact .pure fun _ _ => rfl
  next decl hdecl =>
    obtain ⟨hself, hconditions⟩ := hr id decl hdecl
    refine (alike_newVars w decl.arity).bind fun v args args' hv hargs => ?_
    refine ((hv.pairs hself).alike_instantiate hargs).bind fun v₁ s s' hv₁ hs => ?_
    have hw₁ := hv.trans hv₁
    refine (hs.alike_unifies (hw₁.pairs h)).bind fun v₂ a b hv₂ hab => ?_
    have hw₂ := hw₁.trans hv₂
    subst hab
    cases a with
    | false => exact .pure fun _ _ => rfl
    | true =>
        refine alike_judgeConditions (fun v₃ hv₃ => hjudge v₃ (hw₂.trans hv₃)) ?_ ?_
        · exact hargs.imp fun _ _ hp => (hv₁.trans hv₂).pairs hp
        · exact fun c hc => hw₂.pairs (hconditions c hc)

/-- **Verdicts are the same on twins.**  Obligations of types that are written
alike are judged alike, however deep conditions are followed. -/
theorem alike_judgeWithin (depth : Nat) (hr : r.PairedIn w) (h : w.Pairs t u) :
    Alike w (r.judgeWithin depth t traitId) (r.judgeWithin depth u traitId)
      fun _ a b => a = b := by
  induction depth generalizing w t u traitId with
  | zero =>
      refine h.steady_findRoot.alike.bind fun v t u _ htu => ?_
      refine Alike.get.bind fun v₁ x y hv₁ hxy => ?_
      obtain ⟨rfl, rfl⟩ := hxy
      exact .pure fun _ _ => by rw [settled?_alike (hv₁.pairs htu)]
  | succ depth ih =>
      refine h.steady_findRoot.alike.bind fun v t u hv htu => ?_
      refine Alike.get.bind fun v₁ x y hv₁ hxy => ?_
      obtain ⟨rfl, rfl⟩ := hxy
      have htu₁ := hv₁.pairs htu
      rw [settled?_alike htu₁]
      cases r.settled? v₁.right u traitId with
      | some verdict => exact .pure fun _ _ => rfl
      | none =>
          refine alike_someHolds fun id _ => (Steady.tentatively_eq fun v₂ hv₂ => ?_).alike
          have hr₂ : r.PairedIn v₂ := hr.leads ((hv.trans hv₁).trans hv₂)
          refine alike_judgeImpl (fun v₃ hv₃ t u traitId hp => ?_) hr₂.opened
            (hv₂.pairs htu₁).opened id
          exact ih (hr₂.opened.leads hv₃) hp

/-- A fresh instance of a candidate is written alike on twins. -/
theorem alike_freshInstance {c c' : Candidate} (harity : c'.arity = c.arity)
    (hc : w.Pairs c.expected c'.expected) :
    Alike w c.freshInstance c'.freshInstance fun v a b =>
      v.Pairs a.1 b.1 ∧ List.Forall₂ v.Pairs a.2 b.2 := by
  unfold Candidate.freshInstance
  rw [harity]
  refine (alike_newVars w c.arity).bind fun v args args' hv hargs => ?_
  refine ((hv.pairs hc).alike_instantiate hargs).bind fun v₁ t u hv₁ htu => ?_
  refine .pure fun v₂ hv₂ => ⟨hv₂.pairs htu, ?_⟩
  exact hargs.imp fun _ _ hp => (hv₁.trans hv₂).pairs hp

/-- **The conditions of an impl** are judged alike for paired arguments. -/
theorem alike_judgeImplConditions (hr : r.PairedIn w) (id : ImplId) {args args' : List TypeId}
    (hargs : List.Forall₂ w.Pairs args args') :
    Alike w (r.judgeImplConditions id args) (r.judgeImplConditions id args')
      fun _ a b => a = b := by
  unfold judgeImplConditions
  split
  · exact .pure fun _ _ => rfl
  next decl hdecl =>
    refine alike_judgeConditions (fun v hv t u traitId hp => ?_) hargs (hr id decl hdecl).conditions
    exact alike_judgeWithin _ (hr.leads hv) hp

/-- **Trying is the same on twins.**  A candidate accepts a type on one side
exactly when it accepts, on the other side, what is written alike. -/
theorem steady_accepts (hr : r.PairedIn w) {c c' : Candidate} (horigin : c'.origin = c.origin)
    (harity : c'.arity = c.arity) (hc : w.Pairs c.expected c'.expected) (h : w.Pairs t u) :
    Steady w (r.accepts t c) (r.accepts u c') fun _ a b => a = b := by
  refine .tentatively_eq fun v hv => ?_
  refine (alike_freshInstance harity (hv.pairs hc).opened).bind fun v₁ a b hv₁ hab => ?_
  obtain ⟨expected, args⟩ := a
  obtain ⟨expected', args'⟩ := b
  refine (hab.1.alike_unifies (hv₁.pairs (hv.pairs h).opened)).bind fun v₂ p q hv₂ hpq => ?_
  subst hpq
  rw [horigin]
  cases p with
  | false => exact .pure fun _ _ => rfl
  | true =>
      cases c.origin with
      | object traitId | bound traitId => exact .pure fun _ _ => rfl
      | impl id =>
          have hr₂ : r.PairedIn v₂ := (hr.leads hv).opened.leads (hv₁.trans hv₂)
          refine (alike_judgeImplConditions hr₂ id ?_).bind fun _ a b _ hab => ?_
          · exact hab.2.imp fun _ _ hp => hv₂.pairs hp
          · exact .pure fun _ _ => by rw [hab]

end Resolver

end DotCall
