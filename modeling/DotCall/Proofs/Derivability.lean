import DotCall.Proofs.ImplIndex
import DotCall.Proofs.NestingDepth

/-!
# What obligations can be derived

Impls are the rules of a proof system for obligations `tree: Trait`: a generic
parameter has what its bounds entail, a trait object what its trait entails, and an
impl derives the obligation for each instance of its self type from the obligations
that its conditions become there.  `Derivable` counts how deep a derivation is nested.

For a type without variables, judging searches for a derivation of bounded depth, and
it finds one when there is one (`judge_iff_derivable`).  The point is that matching the
self type of an impl with such a type leaves no choice for the parameters that the
self type mentions, so the conditions are judged for the instance that a derivation
would have to use.
-/

namespace DotCall

open TypeStore DotCall.Tree

namespace Tree

/-- Neither a variable nor an error nor a parameter occurs in the tree. -/
def Ground (t : Tree) : Prop := t.Fixed ∧ t.Proper

variable {pattern target : Tree} {args args' : List Tree}

/-- A tree is ground when none of its leaves is a variable, an error or a parameter. -/
theorem ground_iff {t : Tree} :
    t.Ground ↔ ∀ a ∈ t.atoms, (∀ id, a ≠ .var id) ∧ ¬ a.IsError ∧ ¬ a.IsParam := by
  unfold Ground Fixed Proper
  grind

/-- Only the arguments of parameters that occur matter. -/
theorem fill_congr
    (h : ∀ position, .param position ∈ target.atoms → args[position]? = args'[position]?) :
    target.fill args = target.fill args' := by
  induction target with
  | atom a =>
      cases a with
      | param position => rw [fill_param, fill_param, h position (by simp)]
      | _ => rfl
  | app f ts ih =>
      rw [fill_app, fill_app]
      refine congrArg (Tree.app f) (List.map_congr_left fun t ht => ih t ht fun position hp => ?_)
      exact h position (mem_atoms_app.mpr ⟨t, ht, hp⟩)

/-- An instance tells the arguments of the parameters that occur. -/
theorem arg_eq_of_fill_eq (hlen : args.length = args'.length)
    (h : pattern.fill args = pattern.fill args') {position : Nat}
    (hp : .param position ∈ pattern.atoms) : args[position]? = args'[position]? := by
  induction pattern with
  | atom a =>
      obtain rfl : .param position = a := by simpa using hp
      rw [fill_param, fill_param] at h
      by_cases hlt : position < args.length
      · have hlt' : position < args'.length := hlen ▸ hlt
        simpa [hlt, hlt'] using h
      · rw [List.getElem?_eq_none (Nat.le_of_not_lt hlt),
          List.getElem?_eq_none (hlen ▸ Nat.le_of_not_lt hlt)]
  | app f ts ih =>
      rw [fill_app, fill_app] at h
      obtain ⟨t, ht, hp⟩ := mem_atoms_app.mp hp
      exact ih t ht (List.map_inj_left.mp (Tree.app.inj h).2 t ht) hp

/-- The pattern of a ground instance has no parameters beyond its own. -/
theorem Ground.scoped (h : (pattern.fill args).Ground) : pattern.Scoped args.length := by
  intro position hp
  by_contra hle
  have hmem : .param position ∈ (pattern.fill args).atoms := by
    refine mem_atoms_fill_iff.mpr (.inl ⟨hp, fun i hi heq => ?_⟩)
    have := Atom.param.inj heq
    omega
  exact (ground_iff.mp h _ hmem).2.2 ⟨position, rfl⟩

/-- What mentions no other parameters is ground where the pattern is. -/
theorem Ground.fill (h : (pattern.fill args).Ground) (hfixed : target.Fixed)
    (herror : ¬ target.HasError)
    (hmentions : ∀ position, .param position ∈ target.atoms → .param position ∈ pattern.atoms) :
    (target.fill args).Ground := by
  rw [ground_iff]
  intro a ha
  rcases mem_atoms_fill_iff.mp ha with ⟨ha, hne⟩ | ⟨position, u, hp, hu, ha⟩
  · refine ⟨fun id heq => hfixed id (heq ▸ ha), fun hbad => herror ⟨a, ha, hbad⟩, ?_⟩
    rintro ⟨position, rfl⟩
    exact hne position (h.scoped position (hmentions position ha)) rfl
  · have hmem : a ∈ (pattern.fill args).atoms :=
      mem_atoms_fill_iff.mpr (.inr ⟨position, u, hmentions position hp, hu, ha⟩)
    exact ground_iff.mp h a hmem

end Tree

/-- The obligation `tree: traitId` has a derivation of exactly this height.  The types
of impls are read in the store `s`. -/
inductive Derivable (r : Resolver) (s : TypeStore) : Nat → Tree → TraitId → Prop where
  | bound {param : TypeId} {id : Nat} {lower upper : TraitId}
      (node : s.node param = .atom (.generic id)) (bounded : lower ∈ r.bounds.on param)
      (entails : r.db.entails lower upper) : Derivable r s 0 (.atom (.generic id)) upper
  | object {name : Symbol} {lower upper : TraitId} (named : r.db.traitNamed? name = some lower)
      (entails : r.db.entails lower upper) : Derivable r s 0 (.atom (.object name)) upper
  | impl {h : Nat} {tree : Tree} {traitId : TraitId} {id : ImplId} {decl : ImplDecl}
      {args : List Tree} {height : Condition → TraitId → Nat}
      (declared : r.db.impl? id = some decl) (implements : decl.trait? = some traitId)
      (length : args.length = decl.arity) (self : (s.written decl.self).fill args = tree)
      (le : ∀ c ∈ decl.conditions, ∀ bound ∈ c.traits, height c bound ≤ h)
      (conditions : ∀ c ∈ decl.conditions, ∀ bound ∈ c.traits,
        Derivable r s (height c bound) ((s.written c.ty).fill args) bound) :
      Derivable r s (h + 1) tree traitId

/-- What is not derived without an impl is derived by one. -/
theorem Derivable.exists_impl {r : Resolver} {s : TypeStore} {n : Nat} {tree : Tree}
    {traitId : TraitId} (h : Derivable r s n tree traitId)
    (hnot : ¬ Derivable r s 0 tree traitId) :
    ∃ id decl, r.db.impl? id = some decl ∧ decl.trait? = some traitId ∧
      ∃ args : List Tree, args.length = decl.arity ∧ (s.written decl.self).fill args = tree ∧
        ∀ c ∈ decl.conditions, ∀ bound ∈ c.traits,
          ∃ k, k < n ∧ Derivable r s k ((s.written c.ty).fill args) bound := by
  cases h with
  | bound hnode hlower hentails => exact absurd (.bound hnode hlower hentails) hnot
  | object hnamed hentails => exact absurd (.object hnamed hentails) hnot
  | impl hdecl htrait hlen hself hle hconditions =>
      refine ⟨_, _, hdecl, htrait, _, hlen, hself, fun c hc bound hbound => ?_⟩
      exact ⟨_, Nat.lt_succ_of_le (hle c hc bound hbound), hconditions c hc bound hbound⟩

/-- The types of impls are types of the store in which neither variables nor errors
are written, and conditions mention no parameters but those of the self type. -/
structure Resolver.Determined (r : Resolver) (s : TypeStore) : Prop where
  self : ∀ {id decl}, r.db.impl? id = some decl →
    s.Has decl.self ∧ (s.written decl.self).Fixed ∧ ¬ (s.written decl.self).HasError
  condition : ∀ {id decl}, r.db.impl? id = some decl → ∀ c ∈ decl.conditions,
    s.Has c.ty ∧ (s.written c.ty).Fixed ∧ ¬ (s.written c.ty).HasError ∧
      ∀ position, .param position ∈ (s.written c.ty).atoms →
        .param position ∈ (s.written decl.self).atoms

namespace TypeStore

/-- The store `x` is what work has made of `s`, under checkpoints or not: it has the
types of `s`, and no new atoms but variables. -/
structure Continues (s x : TypeStore) : Prop where
  sound : x.Sound
  grows : Grows s x
  atom : ∀ {t a}, x.node t = .atom a → x.Has t → (∀ id, a ≠ .var id) → s.Has t

namespace Continues

variable {s x y : TypeStore} {t : TypeId}

theorem refl (hs : s.Sound) : Continues s s := ⟨hs, .refl s, fun _ ht _ => ht⟩

theorem opened (h : Continues s x) : Continues s x.opened :=
  ⟨h.sound.opened, ⟨h.grows.size_le, h.grows.count_le, h.grows.node_eq, h.grows.summary_eq⟩, h.atom⟩

/-- Work that is done further on still continues the store at the start. -/
theorem works (h : Continues s x) (hw : Works x y) (hy : y.Sound) : Continues s y := by
  refine ⟨hy, h.grows.trans hw.grows, fun {t a} hn ht ha => ?_⟩
  by_cases hx : x.Has t
  · exact h.atom ((hw.grows.node_eq hx).symm.trans hn) hx ha
  · obtain ⟨id, rfl, -⟩ := hw.atom hx ht hn
    exact absurd rfl (ha id)

/-- How the types of the start are written does not change. -/
theorem written_eq (h : Continues s x) (hs : s.WellFormed) (ht : s.Has t) :
    x.written t = s.written t :=
  hs.written_grows h.sound.wellFormed h.grows ht

end Continues

/-- **Matching a ground type** leaves no choice: the arguments found make the pattern
the type, and whatever is instantiated with them means the instance. -/
theorem Sound.trial_ground {x : TypeStore} (hx : x.Sound) {pattern t : TypeId} {n : Nat}
    (hp : x.Has pattern) (hfixed : (x.written pattern).Fixed)
    (herror : ¬ (x.written pattern).HasError) (ht : x.Has t) (hground : (x.meaning t).Ground) :
    let m := (trial pattern n t).run x.opened
    let found := m.1.1.map m.2.meaning
    Works x.opened m.2 ∧ m.2.Sound ∧ found.length = n ∧
      (m.1.2 = true ↔ ∃ args, args.length = n ∧ (x.written pattern).fill args = x.meaning t) ∧
      (m.1.2 = true → (x.written pattern).fill found = x.meaning t) ∧
      ∀ target, x.Has target → (x.written target).Fixed →
        let u := (instantiate target m.1.1).run m.2
        Quiet m.2 u.2 ∧ u.2.Has u.1 ∧ u.2.meaning u.1 = (x.written target).fill found := by
  have hproper := Tree.proper_iff.mp hground.2
  obtain ⟨hi, hworks, hsound, hbinds, hiff, hgeneral⟩ :=
    hx.unify_instance (n := n) hp hfixed ht (.inr fun hparam => absurd hparam hproper.2)
  have hrun := trial_eq x.opened pattern n t
  dsimp only at hrun
  simp only [hrun, decide_eq_true_eq]
  refine ⟨hworks, hsound, ?_, ?_, ?_, ?_⟩
  · rw [List.length_map, hi.length]
  · rw [hiff]
    constructor
    · rintro (he | he | ⟨hsame, hbare⟩ | ⟨-, -, args, hlen, σ, hσ⟩)
      · exact absurd he hproper.1
      · exact absurd he herror
      · refine ⟨List.replicate n (x.meaning t), by simp, ?_⟩
        rw [hsame]
        exact Bare.fill_eq (by simpa using hbare)
      · exact ⟨args, hlen, hσ.trans (subst_of_no_var hground.1)⟩
    · rintro ⟨args, hlen, hfill⟩
      have hscoped : (x.written pattern).Scoped n := hlen ▸ Ground.scoped (hfill ▸ hground)
      refine .inr (.inr (.inr ⟨hground.2, hscoped, args, hlen, fun id => .atom (.var id), ?_⟩))
      rw [hfill, subst_self]
  · intro hok
    rcases (hgeneral hok).1 with he | he | ⟨σ, hσ⟩
    · exact absurd he hproper.1
    · exact absurd he herror
    · exact hσ.trans (subst_of_no_var hground.1)
  · intro target htarget htfixed
    have hhas : x.opened.Has target := htarget
    have hinstance := hi.instantiate_run hbinds hsound.ordered hhas
      (by rwa [opened_written])
    rwa [opened_written] at hinstance

end TypeStore

namespace Resolver

variable {r : Resolver} {s x : TypeStore} {t : TypeId} {traitId : TraitId} {d : Nat}

/-- What a type says by itself is what is derived without an impl. -/
theorem settled?_ground (hs : s.WellFormed) (hx : Continues s x) (ht : x.Has t)
    (hground : (x.meaning t).Ground) (r : Resolver) (traitId : TraitId) :
    (r.settled? x (x.root t) traitId = some .holds ∧ Derivable r s 0 (x.meaning t) traitId) ∨
      (r.settled? x (x.root t) traitId = none ∧ ¬ Derivable r s 0 (x.meaning t) traitId) := by
  have herror : (x.summary (x.root t)).hasError = false := by
    rw [← Bool.not_eq_true, hx.sound.hasError_root_iff]
    exact (Tree.proper_iff.mp hground.2).1
  unfold settled?
  rw [herror]
  cases hn : x.node (x.root t) with
  | app f args =>
      rw [hx.sound.ordered.meaning_of_app hn]
      exact .inr ⟨rfl, nofun⟩
  | atom a =>
      have hmeaning : x.meaning t = .atom a := meaning_of_atom hn
      rw [hmeaning]
      cases a with
      | var id => exact absurd (by simp [hmeaning]) (hground.1 id)
      | generic id =>
          have hroot : x.Has (x.root t) := hx.sound.ordered.has_root ht
          have hold : s.Has (x.root t) := hx.atom hn hroot (by simp)
          have hnode : s.node (x.root t) = .atom (.generic id) :=
            (hx.grows.node_eq hold).symm.trans hn
          simp only [Bool.false_eq_true, if_false]
          split
          · next hany =>
              obtain ⟨lower, hlower, hentails⟩ := List.any_eq_true.mp hany
              exact .inl ⟨rfl, .bound hnode hlower hentails⟩
          · next hany =>
              refine .inr ⟨rfl, fun hderives => hany ?_⟩
              cases hderives with
              | @bound param _ lower _ hparam hlower hentails =>
                  -- the parameter has one type only
                  have hsame : param = x.root t :=
                    hs.node_injective (has_of_node_ne (by simp [hparam])) hold
                      (hparam.trans hnode.symm)
                  exact List.any_eq_true.mpr ⟨lower, hsame ▸ hlower, hentails⟩
      | object name =>
          simp only [Bool.false_eq_true, if_false]
          split
          · next hany =>
              obtain ⟨lower, hnamed, hentails⟩ := (Option.any_eq_true _ _).mp hany
              exact .inl ⟨rfl, .object hnamed hentails⟩
          · next hany =>
              refine .inr ⟨rfl, fun hderives => hany ?_⟩
              cases hderives with
              | object hnamed hentails =>
                  exact (Option.any_eq_true _ _).mpr ⟨_, hnamed, hentails⟩
      | _ => exact .inr ⟨rfl, nofun⟩

/-- The self types and conditions of determined impls are types of the store. -/
theorem Determined.within (h : r.Determined s) : r.Within s := fun _ _ hdecl =>
  ⟨(h.self hdecl).1, fun c hc => (h.condition hdecl c hc).1⟩

section Layer

variable (hs : s.WellFormed) (hr : r.Determined s)
  (hjudge : ∀ {y : TypeStore} {u : TypeId} {bound : TraitId}, Continues s y → y.Has u →
    (y.meaning u).Ground →
      (r.verdict y d u bound = .holds ↔ ∃ h ≤ d, Derivable r s h (y.meaning u) bound))

include hs hr hjudge

/-- **One impl** makes an obligation hold exactly when its self type has the type as an
instance at which its conditions are derivable. -/
theorem implVerdict_eq_holds (hx : Continues s x) (ht : x.Has t) (hground : (x.meaning t).Ground)
    {id : ImplId} {decl : ImplDecl} (hdecl : r.db.impl? id = some decl) :
    r.implVerdict x d t id = .holds ↔
      ∃ args : List Tree, args.length = decl.arity ∧ (s.written decl.self).fill args = x.meaning t ∧
        ∀ c ∈ decl.conditions, ∀ bound ∈ c.traits,
          ∃ h ≤ d, Derivable r s h ((s.written c.ty).fill args) bound := by
  obtain ⟨hself, hfixed, herror⟩ := hr.self hdecl
  have hwritten := hx.written_eq hs hself
  obtain ⟨hworks, hsound, hlen, hmatches, hfound, hinstance⟩ :=
    hx.sound.trial_ground (n := decl.arity) (hx.grows.has hself) (hwritten ▸ hfixed)
      (hwritten ▸ herror) ht hground
  rw [hwritten] at hmatches hfound
  unfold implVerdict
  rw [hdecl]
  dsimp only
  generalize (trial decl.self decl.arity t).run x.opened = m at *
  obtain ⟨⟨vars, matched⟩, y⟩ := m
  dsimp only at *
  have hy : Continues s y := hx.opened.works hworks hsound
  cases matched with
  | false =>
      refine iff_of_false (by simp) fun hargs => ?_
      obtain ⟨args, hargs, hfill, -⟩ := hargs
      exact absurd (hmatches.mpr ⟨args, hargs, hfill⟩) (by simp)
  | true =>
      have hfill := hfound rfl
      have hinstances : (s.written decl.self).fill (vars.map y.meaning) = x.meaning t := hfill
      -- each condition holds as far as it is derivable for the arguments found
      have hcondition : ∀ c ∈ decl.conditions, r.conditionVerdict y d vars c = .holds ↔
          ∀ bound ∈ c.traits, ∃ h ≤ d,
            Derivable r s h ((s.written c.ty).fill (vars.map y.meaning)) bound := by
        intro c hc
        obtain ⟨hty, hcfixed, hcerror, hmentions⟩ := hr.condition hdecl c hc
        have hcwritten := hx.written_eq hs hty
        obtain ⟨hq, hhas, hmeaning⟩ := hinstance c.ty (hx.grows.has hty) (hcwritten ▸ hcfixed)
        rw [hcwritten] at hmeaning
        have hcground : ((s.written c.ty).fill (vars.map y.meaning)).Ground :=
          Ground.fill (hfill ▸ hground) hcfixed hcerror hmentions
        have hlater : Continues s ((instantiate c.ty vars).run y).2 :=
          hy.works hq.toWorks (hsound.quiet hq)
        unfold conditionVerdict
        rw [Verdict.all_eq_holds, List.forall_mem_map]
        refine forall₂_congr fun bound _ => ?_
        rw [hjudge hlater hhas (hmeaning ▸ hcground), hmeaning]
      rw [if_pos rfl, Verdict.all_eq_holds, List.forall_mem_map]
      constructor
      · intro hall
        exact ⟨_, hlen, hfill, fun c hc => (hcondition c hc).mp (hall c hc)⟩
      · rintro ⟨args, hargs, hsame, hderives⟩ c hc
        -- the arguments of a derivation are those found wherever a condition mentions them
        have hagree : (s.written c.ty).fill (vars.map y.meaning) = (s.written c.ty).fill args := by
          refine fill_congr fun position hp => ?_
          have hmentioned := (hr.condition hdecl c hc).2.2.2 position hp
          exact arg_eq_of_fill_eq (hlen.trans hargs.symm) (hfill.trans hsame.symm) hmentioned
        rw [hcondition c hc, hagree]
        exact hderives c hc

end Layer

/-- **Judging finds derivations**, as deep as conditions are followed. -/
theorem verdict_eq_holds (hs : s.WellFormed) (hr : r.Determined s)
    (hindex : ∀ {traitId id}, id ∈ r.db.implementors traitId ↔
      ∃ decl, r.db.impl? id = some decl ∧ decl.trait? = some traitId)
    (hx : Continues s x) (ht : x.Has t) (hground : (x.meaning t).Ground) :
    r.verdict x d t traitId = .holds ↔ ∃ h ≤ d, Derivable r s h (x.meaning t) traitId := by
  have hwithin : ∀ {y}, Continues s y → r.Within y := fun hy => hr.within.grows hy.grows
  induction d generalizing x t traitId with
  | zero =>
      rw [verdict_zero hx.sound.ordered ht]
      rcases settled?_ground hs hx ht hground r traitId with
        ⟨hsettled, hderives⟩ | ⟨hsettled, hnot⟩
      · rw [hsettled]
        exact iff_of_true rfl ⟨0, Nat.le_refl 0, hderives⟩
      · rw [hsettled]
        refine iff_of_false (by simp) ?_
        rintro ⟨h, hle, hderives⟩
        obtain rfl : h = 0 := Nat.le_zero.mp hle
        exact hnot hderives
  | succ d ih =>
      rw [verdict_succ hx.sound.ordered (hwithin hx) ht]
      rcases settled?_ground hs hx ht hground r traitId with
        ⟨hsettled, hderives⟩ | ⟨hsettled, hnot⟩
      · rw [hsettled]
        exact iff_of_true rfl ⟨0, Nat.zero_le _, hderives⟩
      rw [hsettled, Option.getD_none, Verdict.any_eq_holds, List.mem_map]
      have hmeaning := hx.sound.ordered.meaning_root t
      have hone : ∀ {id decl}, r.db.impl? id = some decl →
          (r.implVerdict x d (x.root t) id = .holds ↔ _) := fun hdecl =>
        implVerdict_eq_holds hs hr (fun hy hu hg => ih hy hu hg) hx
          (hx.sound.ordered.has_root ht) (hmeaning ▸ hground) hdecl
      rw [hmeaning] at hone
      constructor
      · rintro ⟨id, hid, hholds⟩
        obtain ⟨decl, hdecl, htrait⟩ := hindex.mp hid
        obtain ⟨args, hlen, hself, hconditions⟩ := (hone hdecl).mp hholds
        choose! height hle hderives using hconditions
        exact ⟨d + 1, Nat.le_refl _, .impl hdecl htrait hlen hself hle hderives⟩
      · rintro ⟨h, hle, hderives⟩
        obtain ⟨id, decl, hdecl, htrait, args, hlen, hself, hconditions⟩ :=
          hderives.exists_impl hnot
        refine ⟨id, hindex.mpr ⟨decl, hdecl, htrait⟩, (hone hdecl).mpr ⟨args, hlen, hself, ?_⟩⟩
        intro c hc bound hbound
        obtain ⟨k, hk, hderives⟩ := hconditions c hc bound hbound
        exact ⟨k, by omega, hderives⟩

/-- **Judging is correct against derivability.**  For a type without errors, variables and
parameters, in every reached store: the obligation is found to hold exactly when it has
a derivation no higher than the depth to which conditions are followed, and it is
refuted only when it has no derivation at all. -/
theorem judge_iff_derivable {checkpoints : List Checkpoint} (hs : Reached checkpoints s)
    {decls : Declarations} (hdecls : decls.Declared s) {settings : Settings} {bounds : Bounds}
    (hr : (decls.resolver settings bounds).Determined s) (ht : s.Has t)
    (hground : (s.meaning t).Ground) (traitId : TraitId) :
    let r := decls.resolver settings bounds
    let verdict := ((r.judge t traitId).run s).1
    (verdict = .holds ↔ ∃ h ≤ settings.maxNesting, Derivable r s h (s.meaning t) traitId) ∧
      (verdict = .refuted → ∀ h, ¬ Derivable r s h (s.meaning t) traitId) := by
  intro r verdict
  have hsound := hs.sound
  have hholds : ∀ {d}, r.verdict s d t traitId = .holds ↔
      ∃ h ≤ d, Derivable r s h (s.meaning t) traitId :=
    verdict_eq_holds hsound.wellFormed hr hdecls.mem_implementors (.refl hsound) ht hground
  refine ⟨hholds, fun hrefuted h hderives => ?_⟩
  -- at a depth that covers both, the obligation would hold and be refuted
  have hdeep : r.verdict s (max settings.maxNesting h) t traitId = .holds :=
    hholds.mpr ⟨h, Nat.le_max_right _ _, hderives⟩
  have hbelow : (r.verdict s settings.maxNesting t traitId).Below
      (r.verdict s (max settings.maxNesting h) t traitId) :=
    verdict_below (Nat.le_max_left _ _) hsound.ordered hr.within ht
  have hsame := (Verdict.below_iff.mp hbelow).2 hrefuted
  rw [hdeep] at hsame
  cases hsame

/-- The first parameter, slices of it, and slices of `i32`. -/
def slices : StateM TypeStore (TypeId × TypeId × TypeId) := do
  let p ← paramAt 0
  let pattern ← sliceOf p
  let t ← sliceOf (.ofPrimitive .i32)
  pure (p, pattern, t)

theorem slices_run :
    let r := slices.run new
    Reached [] r.2 ∧
      r.2.Reads (.atom (.prim .i32)) (.ofPrimitive .i32) ∧
      r.2.Reads (.atom (.param 0)) r.1.1 ∧
      r.2.Reads (.app .slice [.atom (.param 0)]) r.1.2.1 ∧
      r.2.Reads (.app .slice [.atom (.prim .i32)]) r.1.2.2 := by
  intro r
  obtain ⟨p, hrunp⟩ : ∃ p, (paramAt 0).run new = p := ⟨_, rfl⟩
  obtain ⟨pattern, hrunPattern⟩ : ∃ pattern, (sliceOf p.1).run p.2 = pattern := ⟨_, rfl⟩
  obtain ⟨t, hrunt⟩ : ∃ t, (sliceOf (.ofPrimitive .i32)).run pattern.2 = t := ⟨_, rfl⟩
  have hrun : r = ((p.1, pattern.1, t.1), t.2) := by
    simp only [r, slices, run_bind, hrunp, hrunPattern, hrunt, run_pure]
  -- The parameter.
  obtain ⟨hreached₁, -, hp, hnodep⟩ := Reached.new.paramAt_run 0
  rw [hrunp] at hreached₁ hp hnodep
  have hi32 := hreached₁.reads_primitive .i32
  -- The slices.
  obtain ⟨hq₁, -, hpattern, hnode₁⟩ := hreached₁.sound.ordered.sliceOf_quiet hp
  have hreached₂ : Reached [] ((sliceOf p.1).run p.2).2 :=
    hreached₁.act (.slice p.1) (by simpa only [Action.types, List.forall_mem_singleton] using hp)
  rw [hrunPattern] at hq₁ hpattern hnode₁ hreached₂
  obtain ⟨hq₂, -, ht, hnode₂⟩ := hreached₂.sound.ordered.sliceOf_quiet (hq₁.has hi32.1)
  have hreached : Reached [] ((sliceOf (.ofPrimitive .i32)).run pattern.2).2 :=
    hreached₂.act (.slice (.ofPrimitive .i32))
      (by simpa only [Action.types, List.forall_mem_singleton] using hq₁.has hi32.1)
  rw [hrunt] at hq₂ ht hnode₂ hreached
  have hq := hq₁.trans hq₂
  have hwf := hreached.sound.wellFormed
  have hreadI32 := hq.reads hi32
  have hreadP := hq.reads ⟨hp, WellFormed.written_of_atom hnodep⟩
  rw [hrun]
  refine ⟨hreached, hreadI32, hreadP, ⟨hq₂.has hpattern, ?_⟩, ht, ?_⟩
  · rw [hwf.written_of_app ((hq₂.node_eq hpattern).trans hnode₁), List.map_singleton, hreadP.2]
  · rw [hwf.written_of_app hnode₂, List.map_singleton, hreadI32.2]

/-- With an impl for `i32` and one for slices of whatever has the trait, slices of `i32`
have it by a derivation of height two. -/
theorem judge_iff_derivable_slice :
    let r := slices.run new
    let whole : ImplDecl := ⟨some ⟨0⟩, [.blank], r.1.2.1, [], [⟨r.1.1, [⟨0⟩]⟩]⟩
    let part : ImplDecl := ⟨some ⟨0⟩, [], .ofPrimitive .i32, [], []⟩
    let decls := ((Declarations.empty.addImpl r.2 whole).2.addImpl r.2 part).2
    (((decls.resolver { maxNesting := 2 } .empty).judge r.1.2.2 ⟨0⟩).run r.2).1 = .holds := by
  intro r whole part decls
  obtain ⟨hreached, hi32, hp, hpattern, ht⟩ := slices_run
  change Reached [] r.2 at hreached
  have hmeaning : r.2.meaning r.1.2.2 = .app .slice [.atom (.prim .i32)] := by
    rw [hreached.sound.ordered.meaning_eq_written, ht.2]
    simp [r, ht.2]
  have hdecls : decls.Declared r.2 :=
    .impl (.impl .empty hreached (.refl _) hpattern.1) hreached (.refl _) hi32.1
  have hdecl : ∀ {id decl}, decls.impl? id = some decl → decl = whole ∨ decl = part := by
    intro id decl hdecl
    have hmem : decl ∈ #[whole, part] := Array.mem_of_getElem? hdecl
    simpa using hmem
  let program := decls.resolver { maxNesting := 2 } .empty
  have hr : program.Determined r.2 := by
    constructor
    · intro id decl h
      rcases hdecl h with rfl | rfl
      · exact ⟨hpattern.1, by simp [whole, r, hpattern.2, Fixed],
          by simp [whole, r, hpattern.2, HasError, Atom.IsError]⟩
      · exact ⟨hi32.1, by simp [part, r, hi32.2, Fixed],
          by simp [part, r, hi32.2, HasError, Atom.IsError]⟩
    · intro id decl h c hc
      rcases hdecl h with rfl | rfl
      · obtain rfl : c = ⟨r.1.1, [⟨0⟩]⟩ := by simpa [whole] using hc
        exact ⟨hp.1, by simp [r, hp.2, Fixed], by simp [r, hp.2, HasError, Atom.IsError],
          by simp [whole, r, hp.2, hpattern.2]⟩
      · simp [part] at hc
  have hpart : Derivable program r.2 1 (.atom (.prim .i32)) ⟨0⟩ := by
    apply @Derivable.impl _ _ 0 _ _ ⟨1⟩ part [] (fun _ _ => 0) rfl rfl rfl
    · simp [part, r, hi32.2, fill_atom, Atom.IsParam]
    · simp [part]
    · simp [part]
  have hwhole : Derivable program r.2 2 (r.2.meaning r.1.2.2) ⟨0⟩ := by
    rw [hmeaning]
    apply @Derivable.impl _ _ 1 _ _ ⟨0⟩ whole [.atom (.prim .i32)] (fun _ _ => 1) rfl rfl rfl
    · simp [whole, r, hpattern.2]
    · simp
    · simpa [whole, r, hp.2] using hpart
  have hground : (r.2.meaning r.1.2.2).Ground := by
    rw [hmeaning, ground_iff]
    simp [Atom.IsError, Atom.IsParam]
  exact (judge_iff_derivable hreached hdecls hr ht.1 hground ⟨0⟩).1.mpr ⟨2, Nat.le_refl 2, hwhole⟩

end Resolver

end DotCall
