import DotCall.Proofs.VerdictsAlone

/-!
# The depth to which conditions are followed

Conditions of impls are followed to a configured depth, and what lies beyond is
undecided.  Following them further can only turn undecided verdicts into others: a
verdict that an obligation holds, or that it is refuted, is the same at every greater
depth.  With undecided below the other two verdicts this says that judging is
monotone in the depth; the two ways of combining verdicts are, and hence so is each
layer of impls and conditions.

A candidate is given up only when the conditions of its impl are refuted.  So with a
greater depth fewer candidates may match, but never others.
-/

namespace DotCall

open TypeStore

namespace Verdict

/-- What is decided by `a` is decided by `b` in the same way. -/
def Below (a b : Verdict) : Prop := a ≠ .undecided → b = a

theorem Below.refl (a : Verdict) : a.Below a := fun _ => rfl

/-- What is undecided may become anything. -/
theorem undecided_below (a : Verdict) : undecided.Below a := fun h => absurd rfl h

/-- To be below is to be kept, whichever of the two answers it is. -/
theorem below_iff {a b : Verdict} :
    a.Below b ↔ (a = .holds → b = .holds) ∧ (a = .refuted → b = .refuted) := by
  cases a <;> cases b <;> simp [Below]

section Lists

variable {α : Type} {xs : List α} {f g : α → Verdict}

/-- A conjunction of verdicts is kept when each of them is. -/
theorem all_below (h : ∀ a ∈ xs, (f a).Below (g a)) :
    (all (xs.map f)).Below (all (xs.map g)) := by
  rw [below_iff]
  constructor
  · simp only [all_eq_holds, List.forall_mem_map]
    exact fun hall a ha => (below_iff.mp (h a ha)).1 (hall a ha)
  · simp only [all_eq_refuted, List.mem_map]
    rintro ⟨a, ha, hrefuted⟩
    exact ⟨a, ha, (below_iff.mp (h a ha)).2 hrefuted⟩

/-- So is an alternative. -/
theorem any_below (h : ∀ a ∈ xs, (f a).Below (g a)) :
    (any (xs.map f)).Below (any (xs.map g)) := by
  rw [below_iff]
  constructor
  · simp only [any_eq_holds, List.mem_map]
    rintro ⟨a, ha, hholds⟩
    exact ⟨a, ha, (below_iff.mp (h a ha)).1 hholds⟩
  · simp only [any_eq_refuted, List.forall_mem_map]
    exact fun hall a ha => (below_iff.mp (h a ha)).2 (hall a ha)

end Lists

end Verdict

namespace Resolver

variable {r : Resolver} {s : TypeStore} {t : TypeId} {traitId : TraitId} {d d' : Nat}
  {args : List TypeId}

section Layer

variable (hjudge : ∀ {x : TypeStore} {u : TypeId} {upper : TraitId}, x.Ordered → r.Within x →
  x.Has u → (r.verdict x d u upper).Below (r.verdict x d' u upper))

include hjudge

/-- A condition that is decided at some depth is decided alike at a greater one. -/
theorem conditionVerdict_below (hs : s.Ordered) (hr : r.Within s) (hargs : ∀ a ∈ args, s.Has a)
    {c : Condition} (hc : s.Has c.ty) :
    (r.conditionVerdict s d args c).Below (r.conditionVerdict s d' args c) := by
  obtain ⟨hq, hty⟩ := calm_instantiate hc hargs s (.refl hs)
  exact Verdict.all_below fun upper _ => hjudge hq.finish (hr.grows hq.grows) hty

/-- The trial of an impl does not depend on the depth, and its conditions are judged
on the store that it leads to. -/
theorem implVerdict_below (hs : s.Ordered) (hr : r.Within s) (ht : s.Has t) (id : ImplId) :
    (r.implVerdict s d t id).Below (r.implVerdict s d' t id) := by
  unfold implVerdict
  cases hdecl : r.db.impl? id with
  | none => exact .refl _
  | some decl =>
      obtain ⟨hself, hconditions⟩ := hr id decl hdecl
      obtain ⟨hworks, hwithin, hargs⟩ := hr.opened_trial hs hself ht decl.arity
      dsimp only
      split
      · refine Verdict.all_below fun c hc => ?_
        apply conditionVerdict_below hjudge hworks.finish hwithin hargs
        exact hworks.grows.has (hconditions c hc)
      · exact .refl _

end Layer

/-- **Verdicts are monotone in the depth.** -/
theorem verdict_below (hle : d ≤ d') (hs : s.Ordered) (hr : r.Within s) (ht : s.Has t) :
    (r.verdict s d t traitId).Below (r.verdict s d' t traitId) := by
  induction d generalizing d' s t traitId with
  | zero =>
      -- what is decided without impls is decided by the type alone
      rw [verdict_zero hs ht]
      cases d' with
      | zero => rw [verdict_zero hs ht]; exact .refl _
      | succ d' =>
          rw [verdict_succ hs hr ht]
          cases r.settled? s (s.root t) traitId with
          | some v => exact .refl v
          | none => exact Verdict.undecided_below _
  | succ d ih =>
      obtain ⟨d', rfl⟩ := Nat.exists_eq_add_of_le' (Nat.one_le_of_lt hle)
      have hle' : d ≤ d' := Nat.le_of_succ_le_succ hle
      rw [verdict_succ hs hr ht, verdict_succ hs hr ht]
      cases r.settled? s (s.root t) traitId with
      | some v => exact .refl v
      | none =>
          refine Verdict.any_below fun id _ => ?_
          exact implVerdict_below (fun hx hr hu => ih hle' hx hr hu) hs hr (hs.has_root ht) id

/-- The resolver with another depth. -/
def upTo (r : Resolver) (depth : Nat) : Resolver :=
  { r with settings := { r.settings with maxNesting := depth } }

/-- The depth that is set does not matter to a judgement whose depth is given. -/
theorem judgeWithin_upTo (r : Resolver) (depth n : Nat) :
    (r.upTo depth).judgeWithin n = r.judgeWithin n := by
  induction n with
  | zero => rfl
  | succ n ih =>
      funext t traitId
      unfold judgeWithin
      rw [ih]
      rfl

theorem judge_upTo (r : Resolver) (d : Nat) : (r.upTo d).judge = r.judgeWithin d :=
  judgeWithin_upTo r d d

theorem conditionVerdict_upTo (r : Resolver) (d : Nat) :
    (r.upTo d).conditionVerdict = r.conditionVerdict := by
  unfold conditionVerdict verdict
  simp only [judgeWithin_upTo]

/-- The conditions of an impl, at the depth that is set. -/
theorem judgeImplConditions_below (hle : d ≤ d') (hs : s.Ordered) (hr : r.Within s)
    (hargs : ∀ a ∈ args, s.Has a) (id : ImplId) :
    (((r.upTo d).judgeImplConditions id args).run s).1.Below
      (((r.upTo d').judgeImplConditions id args).run s).1 := by
  have hupTo : ∀ depth, (r.upTo depth).Within s := fun _ => hr
  rw [judgeImplConditions_fst hs (hupTo d) hargs, judgeImplConditions_fst hs (hupTo d') hargs,
    conditionVerdict_upTo, conditionVerdict_upTo]
  cases hdecl : r.db.impl? id with
  | none =>
      have hnone : ∀ depth, (r.upTo depth).db.impl? id = none := fun _ => hdecl
      rw [hnone, hnone]
      exact .refl _
  | some decl =>
      have hsome : ∀ depth, (r.upTo depth).db.impl? id = some decl := fun _ => hdecl
      rw [hsome, hsome]
      refine Verdict.all_below fun c hmem => ?_
      exact conditionVerdict_below (fun hx hr hu => verdict_below hle hx hr hu) hs hr hargs
        ((hr id decl hdecl).2 c hmem)

/-- What is accepted at a greater depth is accepted at a smaller one, where fewer
conditions are refuted. -/
theorem afterMatch_upTo (hle : d ≤ d') (hs : s.Ordered) (hr : r.Within s)
    (hargs : ∀ a ∈ args, s.Has a) (origin : Origin) (matched : Bool)
    (h : (((r.upTo d').afterMatch origin args matched).run s).1 = true) :
    (((r.upTo d).afterMatch origin args matched).run s).1 = true := by
  cases matched with
  | false => exact h
  | true =>
      cases origin with
      | object _ | bound _ => rfl
      | impl id =>
          have hbelow := judgeImplConditions_below hle hs hr hargs id
          simp only [afterMatch, if_true, run_bind, run_pure, Verdict.isPossible,
            decide_eq_true_eq] at h ⊢
          exact fun hrefuted => h ((Verdict.below_iff.mp hbelow).2 hrefuted)

/-- What a candidate accepts with conditions followed further, it accepts without. -/
theorem accepts_upTo (hle : d ≤ d') (hs : s.Ordered) (hr : r.Within s) (ht : s.Has t)
    {c : Candidate} (hc : s.Has c.expected)
    (h : (((r.upTo d').accepts t c).run s).1 = true) :
    (((r.upTo d).accepts t c).run s).1 = true := by
  obtain ⟨hworks, hwithin, hargs⟩ := hr.opened_trial hs hc ht c.arity
  rw [accepts_fst] at h ⊢
  exact afterMatch_upTo hle hworks.finish hwithin hargs _ _ h

/-- What matches of a list of candidates is what each accepts alone, wherever in the
search they are tried. -/
theorem keepM_accepts (hs : s.Ordered) (hr : r.Within s) (ht : s.Has t)
    {candidates : List Candidate} (hc : ∀ c ∈ candidates, s.Has c.expected) {x : TypeStore}
    (hx : Quiet s x) :
    ((keepM (r.accepts t) candidates).run x).1 =
      candidates.filter fun c => ((r.accepts t c).run s).1 := by
  have hreads := (hs.form_reads .byValue ht).2
  have hcalm := calm_keepM fun c hmem =>
    calm_accepts hr (hc c hmem) ht (.refl hs) (p := .byValue) hreads
  exact (hcalm x hx).2

/-- **Decided verdicts do not depend on the depth.**  In every store whose links do not
run in a circle: if an obligation, or the conditions of an impl with any arguments, is
found to hold or to be refuted, it is found so at every greater depth.  And wherever in
a search the candidates of a cell are tried, those that match at the greater depth are
among those that match at the lesser, in the same order. -/
theorem decided_upTo (hs : s.Ordered) (hr : r.Within s) (hle : d ≤ d') :
    (∀ t traitId, s.Has t → (((r.upTo d).judge t traitId).run s).1 ≠ .undecided →
      (((r.upTo d').judge t traitId).run s).1 = (((r.upTo d).judge t traitId).run s).1) ∧
    (∀ id args, (∀ a ∈ args, s.Has a) →
      (((r.upTo d).judgeImplConditions id args).run s).1 ≠ .undecided →
      (((r.upTo d').judgeImplConditions id args).run s).1 =
        (((r.upTo d).judgeImplConditions id args).run s).1) ∧
    ∀ form candidates x x', s.Has form → (∀ c ∈ candidates, s.Has c.expected) →
      Quiet s x → Quiet s x' →
      (((keepM ((r.upTo d').accepts form) candidates).run x').1).Sublist
        ((keepM ((r.upTo d).accepts form) candidates).run x).1 := by
  refine ⟨fun t traitId ht => ?_, fun id args hargs => ?_, ?_⟩
  · rw [judge_upTo, judge_upTo]
    exact verdict_below hle hs hr ht
  · exact judgeImplConditions_below hle hs hr hargs id
  · intro form candidates x x' hform hc hx hx'
    have hupTo : ∀ depth, (r.upTo depth).Within s := fun _ => hr
    rw [keepM_accepts hs (hupTo d') hform hc hx', keepM_accepts hs (hupTo d) hform hc hx]
    have hsub : candidates.filter (fun c => (((r.upTo d').accepts form c).run s).1) =
        (candidates.filter fun c => (((r.upTo d).accepts form c).run s).1).filter
          fun c => (((r.upTo d').accepts form c).run s).1 := by
      rw [List.filter_filter]
      refine List.filter_congr fun c hmem => ?_
      have himp := accepts_upTo hle hs hr hform (hc c hmem)
      cases hd' : (((r.upTo d').accepts form c).run s).1 with
      | false => rfl
      | true => simp [himp hd']
    rw [hsub]
    exact List.filter_sublist

/-- `i32` has the first trait by an impl whose condition is met by an impl of the second,
and `bool` has neither.  At depth two both is decided; so it is at depth nine, and the
candidate of the first impl still matches. -/
theorem decided_upTo_two :
    let first : ImplDecl :=
      ⟨some ⟨0⟩, [], .ofPrimitive .i32, [], [⟨.ofPrimitive .i32, [⟨1⟩]⟩]⟩
    let second : ImplDecl := ⟨some ⟨1⟩, [], .ofPrimitive .i32, [], []⟩
    let r := (((Declarations.empty.addImpl new first).2.addImpl new second).2).resolver {} .empty
    let c : Candidate :=
      ⟨.impl ⟨0⟩, .extension ⟨0⟩, .blank, .byValue, .ofPrimitive .i32, 0, .ofPrimitive .i32⟩
    (((r.upTo 9).judge (.ofPrimitive .i32) ⟨0⟩).run new).1 = .holds ∧
      (((r.upTo 9).judge (.ofPrimitive .bool) ⟨0⟩).run new).1 = .refuted ∧
      (((r.upTo 9).judgeImplConditions ⟨0⟩ []).run new).1 = .holds ∧
      (((keepM ((r.upTo 9).accepts (.ofPrimitive .i32)) [c]).run new).1).Sublist [c] := by
  intro first second r c
  have hr : r.Within new := by
    intro id decl hdecl
    have hmem : decl ∈ #[first, second] := Array.mem_of_getElem? hdecl
    have hcases : decl = first ∨ decl = second := by simpa using hmem
    rcases hcases with rfl | rfl
    · exact ⟨by decide, by decide⟩
    · exact ⟨by decide, by simp [second]⟩
  let implementors : TraitId → List ImplId := fun t =>
    if t = ⟨0⟩ then [⟨0⟩] else if t = ⟨1⟩ then [⟨1⟩] else []
  have hdb : r.db.implementors = implementors := by
    funext t
    simp only [r, Declarations.resolver, Declarations.database, Declarations.implementors,
      Declarations.addImpl, Declarations.indexUnder, Declarations.empty, first, second,
      Std.HashMap.getD_insert, implementors]
    by_cases hfirst : t = ⟨0⟩
    · subst hfirst
      simp
    · by_cases hsecond : t = ⟨1⟩
      · subst hsecond
        simp
      · simp [hfirst, hsecond, Ne.symm hfirst, Ne.symm hsecond]
  have hsame : r = { r with db := { r.db with implementors := implementors } } := by
    rw [← hdb]
  have hrefl : Quiet new new := .refl new_sound.ordered
  obtain ⟨hjudge, hconditions, hmatch⟩ := decided_upTo new_sound.ordered hr
    (show 2 ≤ 9 by decide)
  have hholds : (((r.upTo 2).judge (.ofPrimitive .i32) ⟨0⟩).run new).1 = .holds := by
    rw [hsame]
    decide +kernel
  have hrefuted : (((r.upTo 2).judge (.ofPrimitive .bool) ⟨0⟩).run new).1 = .refuted := by
    rw [hsame]
    decide +kernel
  have hmet : (((r.upTo 2).judgeImplConditions ⟨0⟩ []).run new).1 = .holds := by
    rw [hsame]
    decide +kernel
  have hcell : ((keepM ((r.upTo 2).accepts (.ofPrimitive .i32)) [c]).run new).1 = [c] := by
    rw [hsame]
    decide +kernel
  refine ⟨?_, ?_, ?_, ?_⟩
  · exact (hjudge (.ofPrimitive .i32) ⟨0⟩ (by decide) (by rw [hholds]; decide)).trans hholds
  · exact (hjudge (.ofPrimitive .bool) ⟨0⟩ (by decide) (by rw [hrefuted]; decide)).trans hrefuted
  · exact (hconditions ⟨0⟩ [] (by simp) (by rw [hmet]; decide)).trans hmet
  · have hexpected : ∀ c' ∈ [c], new.Has c'.expected := by decide
    have hsub := hmatch (.ofPrimitive .i32) [c] new new (by decide) hexpected hrefl hrefl
    rwa [hcell] at hsub

end Resolver

end DotCall
