import DotCall.Proofs.LastingCalls

/-!
# Inferred arguments

A confirmed call says how the receiver was adjusted, what it was adjusted to, and what
the parameters of the impl became.  These belong together.  The adjustments of a choice,
applied one after the other, lead to the type that the candidate was committed to
(`adjust_applies`).  The commitment made that type equal to an instance of what the
candidate expects, so it means what the candidate expects with the inferred arguments
filled in (`Candidate.Commits.meaning_eq_fill`).  Filling them in once more gives the very
handle of the adjusted receiver.

An error lets anything pass, so nothing of this holds where one is involved.
-/

namespace DotCall

open TypeStore DotCall.Tree

namespace Resolver

/-- The type that one adjustment leads to. -/
def apply (r : Resolver) (t : TypeId) : Adjustment → StateM TypeStore (Option TypeId)
  | .deref => r.coercions.deref? t
  | .unsize => r.coercions.unsize? t
  | .borrow b => do
    let u ← refTo b t
    pure (some u)

/-- The type that adjustments lead to, applied in order. -/
def applyAll (r : Resolver) : List Adjustment → TypeId → StateM TypeStore (Option TypeId)
  | [], t => pure (some t)
  | a :: rest, t => do
    match ← r.apply t a with
    | none => pure none
    | some next => r.applyAll rest next

variable {r : Resolver} {s x y : TypeStore} {t u receiver : TypeId} {choice : Choice}

/-- Adjustments are applied one after the other, each to what the one before it yields. -/
theorem applyAll_cons {a : Adjustment} {rest : List Adjustment}
    (h : (r.apply t a).run x = (some u, y)) :
    (r.applyAll (a :: rest) t).run x = (r.applyAll rest u).run y := by
  simp only [applyAll, run_bind, h]

/-- So a list of them may be split anywhere. -/
theorem applyAll_append {first rest : List Adjustment}
    (h : (r.applyAll first t).run x = (some u, y)) :
    (r.applyAll (first ++ rest) t).run x = (r.applyAll rest u).run y := by
  induction first generalizing t x with
  | nil =>
      cases h
      rfl
  | cons a first ih =>
      obtain ⟨z, hz⟩ : ∃ z, (r.apply t a).run x = z := ⟨_, rfl⟩
      cases hnext : z.1 with
      | none =>
          simp only [applyAll, run_bind, hz, hnext, run_pure] at h
          cases h
      | some next =>
          have happly : (r.apply t a).run x = (some next, z.2) := hz.trans (Prod.ext hnext rfl)
          rw [applyAll_cons happly] at h
          rw [List.cons_append, applyAll_cons happly, ih h]

/-- Dereferencing repeatedly applies as many dereferences. -/
theorem derefTimes_applies {n : Nat} (h : (r.derefTimes n t).run x = (.ok u, y)) :
    (r.applyAll (List.replicate n .deref) t).run x = (some u, y) := by
  induction n generalizing t x with
  | zero =>
      cases h
      rfl
  | succ n ih =>
      obtain ⟨z, hz⟩ : ∃ z, (r.coercions.deref? t).run x = z := ⟨_, rfl⟩
      cases hnext : z.1 with
      | none =>
          simp only [derefTimes, run_bind, hz, hnext, run_pure] at h
          cases h
      | some next =>
          simp only [derefTimes, run_bind, hz, hnext] at h
          have happly : (r.apply t .deref).run x = (some next, z.2) :=
            hz.trans (Prod.ext hnext rfl)
          rw [List.replicate_succ, applyAll_cons happly]
          exact ih h

/-- The unsizing of a choice is the adjustment that it is recorded as. -/
theorem unsizeIf_applies {unsizes : Bool} (h : (r.unsizeIf unsizes t).run x = (.ok u, y)) :
    (r.applyAll (if unsizes then [.unsize] else []) t).run x = (some u, y) := by
  cases unsizes with
  | false =>
      cases h
      rfl
  | true =>
      obtain ⟨z, hz⟩ : ∃ z, (r.coercions.unsize? t).run x = z := ⟨_, rfl⟩
      cases hnext : z.1 with
      | none =>
          simp only [unsizeIf, if_true, run_bind, hz, hnext, run_pure] at h
          cases h
      | some next =>
          simp only [unsizeIf, if_true, run_bind, hz, hnext, run_pure] at h
          cases h
          have happly : (r.apply t .unsize).run x = (some u, z.2) := hz.trans (Prod.ext hnext rfl)
          rw [if_pos rfl, applyAll_cons happly]
          rfl

/-- **The adjustments of a choice**, applied in order, lead to the type that its receiver
is adjusted to. -/
theorem adjust_applies (h : (r.adjust receiver choice).run s = (.ok t, x)) :
    (findRoot receiver >>= r.applyAll choice.adjustments).run s = (some t, x) := by
  obtain ⟨a, ha⟩ : ∃ a, (findRoot receiver).run s = a := ⟨_, rfl⟩
  obtain ⟨b, hb⟩ : ∃ b, (r.derefTimes choice.derefs a.1).run a.2 = b := ⟨_, rfl⟩
  cases hderefs : b.1 with
  | error e =>
      simp only [adjust, run_bind, ha, hb, hderefs, run_pure] at h
      cases h
  | ok p =>
      obtain ⟨c, hc⟩ : ∃ c, (r.unsizeIf choice.unsizes p).run b.2 = c := ⟨_, rfl⟩
      cases hunsizes : c.1 with
      | error e =>
          simp only [adjust, run_bind, ha, hb, hderefs, hc, hunsizes, run_pure] at h
          cases h
      | ok q =>
          simp only [adjust, run_bind, ha, hb, hderefs, hc, hunsizes, run_pure] at h
          obtain ⟨hform, rfl⟩ := Prod.mk.inj h
          cases hform
          rw [run_bind, ha, Choice.adjustments, List.append_assoc,
            applyAll_append (derefTimes_applies (hb.trans (Prod.ext hderefs rfl))),
            applyAll_append (unsizeIf_applies (hc.trans (Prod.ext hunsizes rfl)))]
          cases choice.passing with
          | byValue => rfl
          | byBorrow b => rfl

end Resolver

/-- In a sound store the variables of a meaning are free. -/
theorem TypeStore.Sound.free_of_mem_meaning {s : TypeStore} (h : s.Sound) {t : TypeId} {id : Nat}
    (hid : .var id ∈ (s.meaning t).atoms) : ∃ name, s.binding id = .free id name := by
  obtain ⟨v, hv, hl, -⟩ := h.ordered.descends_of_mem_meaning hid
  cases hb : s.binding id with
  | linked u => exact absurd hb (link?_eq_none.mp hl id u hv)
  | generic name => exact absurd hb (h.var_sort hv name)
  | free i name => exact ⟨name, by rw [h.free_id hb]⟩

namespace Candidate

variable {c : Candidate} {t e : TypeId} {x y m : TypeStore} {vars args : List TypeId}

/-- **Commitments infer the arguments.**  Where no error lets it pass, the type means
what the candidate expects, with what the variables of the instance became filled in. -/
theorem Commits.meaning_eq_fill (h : c.Commits t x y m vars e args) (hs : x.Sound)
    (hc : c.Stands x) (ht : x.Has t) (hexpected : ¬ (x.written c.expected).HasError)
    (herror : ¬ (x.meaning t).HasError) :
    m.meaning t = (x.written c.expected).fill (args.map m.written) := by
  have hi := h.fresh
  have hy := (hs.quiet hi.quiet).opened
  have hte : y.opened.Has t := hi.quiet.has ht
  obtain ⟨hz, -⟩ := hy.unify_sound (a := e) hi.reads.1 hte
  have hgrows := h.grows_opened hs ht
  have hm := h.sound.ordered
  -- the instance and the type have come to mean the same
  have hsame : m.meaning e = m.meaning t := by
    refine hm.meaning_eq_of_value_eq fun σ hσ => ?_
    have hσz := (hz.ordered.allows_iff_of_keeps hm h.keeps).mp hσ
    rw [hy.wellFormed.value_grows h.sound.wellFormed hgrows hi.reads.1,
      hy.wellFormed.value_grows h.sound.wellFormed hgrows hte]
    refine (hy.value_eq_after_unify (a := e) hi.reads.1 hte h.unified ?_ ?_ hσz).2
    · rwa [opened_meaning, hi.meaning_eq hc.fixed, withVars_hasError]
    · rwa [opened_meaning, hi.quiet.meaning_eq ht]
  -- and the instance means what its variables have become
  let σ := m.completed fun id => .atom (.var id)
  have hvars : (List.range' x.variableCount c.arity).map σ = vars.map m.meaning := by
    refine (map_eq_map_of_imp hi.nodes.symm fun id v hnode => ?_)
    have hv : m.node v = .atom (.var id) :=
      (hgrows.node_eq (has_of_node_ne (s := y) (by simp [← hnode]))).trans hnode.symm
    rw [hm.meaning_eq_value, value_of_var hv]
  have hwritten : m.written e = (x.written c.expected).withVars x.variableCount c.arity :=
    (hy.wellFormed.written_grows h.sound.wellFormed hgrows hi.reads.1).trans
      ((congrFun opened_written e).trans hi.reads.2)
  rw [← hsame, hm.meaning_eq_value, value, hwritten, hc.fixed.subst_withVars, hvars,
    (reads_all h.reads).2]

end Candidate

namespace Declarations

variable {d : Declarations} {settings : Settings} {bounds : Bounds} {s s' : TypeStore}
  {receiver : TypeId} {choice : Choice} {call : ResolvedCall}

section Settled

variable {r : Resolver} {t : TypeId} {x m : TypeStore}
  (h : Settled r s s' receiver choice call t x m) (hs : s.Sound)

include h

/-- After the commitment the type means what it means at the end: judging the conditions
binds nothing. -/
theorem Settled.meaning_eq : s'.meaning t = m.meaning t :=
  h.last.meaning_eq (h.grows.has h.has)

/-- Expanding the adjusted receiver once more gives the same handle. -/
theorem Settled.expand_eq : ((expand t).run s').1 = call.receiver := by
  obtain ⟨hq, hexpanded⟩ := h.last.finish.expand_run (h.last.has (h.grows.has h.has))
  rw [h.meaning_eq] at hexpanded
  have hlater := hq.reads h.reads
  exact hq.finish.wellFormed.written_injective hexpanded.1 hlater.1
    (hexpanded.2.trans hlater.2.symm)

include hs

/-- Filling in the inferred arguments gives the adjusted receiver. -/
theorem Settled.instantiate_eq (hexpected : ¬ (x.written choice.candidate.expected).HasError)
    (herror : ¬ (x.meaning t).HasError) :
    ((instantiate choice.candidate.expected call.args).run s').1 = call.receiver := by
  obtain ⟨y, vars, e, hcommits⟩ := h.commits
  have hsx := hs.quiet h.quiet
  have hs' := hcommits.sound.quiet h.last
  have hargs := reads_all (hcommits.reads.imp fun _ _ hu => h.last.reads hu)
  obtain ⟨hq, hinstance⟩ := hs'.ordered.instantiate_run hargs.1
    (h.last.has (h.grows.has h.stands.has))
  have hlater := hq.reads h.reads
  have hwritten : s'.written choice.candidate.expected = x.written choice.candidate.expected :=
    hsx.wellFormed.written_grows hs'.wellFormed (h.grows.trans h.last.grows) h.stands.has
  refine hq.finish.wellFormed.written_injective hinstance.1 hlater.1 ?_
  rw [hinstance.2, hlater.2, hwritten, hargs.2, ← (reads_all hcommits.reads).2]
  exact (hcommits.meaning_eq_fill hsx h.stands h.has hexpected herror).symm

/-- The adjusted receiver and the arguments are written as they are meant. -/
theorem Settled.left_free {u : TypeId} (hu : u ∈ call.receiver :: call.args) :
    s'.Has u ∧ ∀ id, .var id ∈ (s'.written u).atoms → ∃ name, s'.binding id = .free id name := by
  obtain ⟨y, vars, e, hcommits⟩ := h.commits
  have hleft : ∀ {v}, m.Has v → s'.Reads (m.meaning v) u → s'.Has u ∧
      ∀ id, .var id ∈ (s'.written u).atoms → ∃ name, s'.binding id = .free id name := by
    intro v hv hu
    rw [← h.last.meaning_eq hv] at hu
    exact ⟨hu.1, fun id hid =>
      (hcommits.sound.quiet h.last).free_of_mem_meaning (t := v) (hu.2 ▸ hid)⟩
  rcases List.mem_cons.mp hu with rfl | hmem
  · exact hleft (h.grows.has h.has) h.reads
  · obtain ⟨v, hv, hreads⟩ := exists_of_forall₂ hcommits.reads u hmem
    have hvy : y.opened.Has v := hcommits.fresh.has_args v hv
    exact hleft ((hcommits.grows_opened (hs.quiet h.quiet) h.has).has hvy) (h.last.reads hreads)

end Settled

/-- **Inferred arguments instantiate the callee.**  In every reached store, for every
choice at all that is not called through a trait: when it is confirmed, its adjustments
lead from the receiver to a type `t`.  Unless an error is involved, the inferred arguments
are as many as the impl has parameters, what the candidate expects is instantiated with
them to the very handle of the adjusted receiver, all variables that are left are free,
and `t` is expanded to that same handle. -/
theorem confirm_instantiates {checkpoints : List Checkpoint} (h : Reached checkpoints s)
    (hd : d.RulesWithin s) (ht : s.Has receiver) (hc : choice.candidate.Stands s)
    (hexpected : ¬ (s.written choice.candidate.expected).HasError)
    (hvia : choice.viaTrait = false)
    (hok : ((d.resolver settings bounds).confirm receiver choice).run s = (.ok call, s')) :
    ∃ t x, (findRoot receiver >>= (d.resolver settings bounds).applyAll call.adjustments).run s =
        (some t, x) ∧
      (¬ (x.meaning t).HasError →
        call.args.length = choice.candidate.arity ∧
        ((instantiate choice.candidate.expected call.args).run s').1 = call.receiver ∧
        (∀ u ∈ call.receiver :: call.args, s'.Has u ∧ ∀ id, .var id ∈ (s'.written u).atoms →
          ∃ name, s'.binding id = .free id name) ∧
        ((expand t).run s').1 = call.receiver) := by
  have hs := h.sound
  obtain ⟨t, x, m, hsettled⟩ := settled_of_confirm_ok hs hd ht hc hvia hok
  refine ⟨t, x, hsettled.adjustments ▸ Resolver.adjust_applies hsettled.adjusts, fun herror =>
    ⟨?_, ?_, fun u => hsettled.left_free hs, hsettled.expand_eq⟩⟩
  · obtain ⟨y, vars, e, hcommits⟩ := hsettled.commits
    rw [← hcommits.reads.length_eq, hcommits.fresh.length]
  · refine hsettled.instantiate_eq hs ?_ herror
    rwa [hsettled.quiet.written_eq hc.has]

/-- The type `&Wrap<v>` of a variable `v`, and the type `Wrap<P>` of a parameter. -/
def borrowedWrap : StateM TypeStore (TypeId × TypeId) := do
  let (_, wrapped, general) ← openWrap
  let receiver ← refTo .shared wrapped
  pure (receiver, general)

theorem borrowedWrap_run :
    let w := borrowedWrap.run new
    Reached [] w.2 ∧ w.2.Has w.1.1 ∧ w.2.Has w.1.2 ∧
      w.2.written w.1.2 = .app (.nominal .blank) [.atom (.param 0)] := by
  intro w
  obtain ⟨hreached, -, hwrapped, hgeneral, hwritten, -⟩ := openWrap_run
  obtain ⟨o, ho⟩ : ∃ o, openWrap.run new = o := ⟨_, rfl⟩
  obtain ⟨u, hu⟩ : ∃ u, (refTo .shared o.1.2.1).run o.2 = u := ⟨_, rfl⟩
  have hrun : w = ((u.1, o.1.2.2), u.2) := by
    simp only [w, borrowedWrap, run_bind, ho, hu, run_pure]
  rw [ho] at hreached hwrapped hgeneral hwritten
  have hreached' := Reached.act (.ref .shared o.1.2.1) hreached
    (List.forall_mem_singleton.mpr hwrapped)
  obtain ⟨hq, -, hhas, -⟩ := hreached.sound.ordered.refTo_quiet .shared hwrapped
  rw [hu] at hq hhas
  rw [hrun]
  exact ⟨hu ▸ hreached', hhas, hq.has hgeneral, (hq.written_eq hgeneral).trans hwritten⟩

/-- A method on `Wrap<P>`, for which the receiver is dereferenced once. -/
def wrapChoice (general : TypeId) : Choice :=
  ⟨⟨.impl ⟨0⟩, .inherent, .blank, .byValue, general, 1, general⟩, 1, .byValue, false, false⟩

set_option maxRecDepth 8192 in
/-- The method is confirmed for `&Wrap<v>`, and `P` is inferred to be `v`. -/
theorem borrowedWrap_confirmed :
    let w := borrowedWrap.run new
    let r := Declarations.empty.resolver {} .empty
    let adjusted := (findRoot w.1.1 >>= r.applyAll [.deref]).run w.2
    (((r.confirm w.1.1 (wrapChoice w.1.2)).run w.2).1, adjusted.1.map adjusted.2.meaning) =
      (.ok ⟨[.deref], .ofImpl ⟨0⟩, ⟨67⟩, [⟨66⟩]⟩,
        some (.app (.nominal .blank) [.atom (.var 0)])) := by
  cbv

/-- So `Wrap<P>` is instantiated with `v` to the type that the receiver points at. -/
theorem confirm_instantiates_borrowed :
    let w := borrowedWrap.run new
    let z := ((Declarations.empty.resolver {} .empty).confirm w.1.1 (wrapChoice w.1.2)).run w.2
    ((instantiate w.1.2 [⟨66⟩]).run z.2).1 = ⟨67⟩ := by
  obtain ⟨hreached, hreceiver, hgeneral, hwritten⟩ := borrowedWrap_run
  obtain ⟨hconfirmed, hadjusted⟩ := Prod.mk.inj borrowedWrap_confirmed
  generalize borrowedWrap.run new = w at *
  have hrules : Declarations.empty.RulesWithin w.2 := by
    simp [RulesWithin, Declarations.empty]
  have hstands : (wrapChoice w.1.2).candidate.Stands w.2 :=
    ⟨hgeneral, by simp [wrapChoice, hwritten, Fixed]⟩
  obtain ⟨t, x, hrun, hinferred⟩ := confirm_instantiates hreached hrules hreceiver hstands
    (by simp [wrapChoice, hwritten, HasError, Atom.IsError]) rfl (run_of_fst hconfirmed)
  have hmeaning : x.meaning t = .app (.nominal .blank) [.atom (.var 0)] := by
    dsimp only at hrun
    rw [hrun] at hadjusted
    exact Option.some.inj hadjusted
  exact (hinferred (by simp [hmeaning, HasError, Atom.IsError])).2.1

end Declarations

end DotCall
