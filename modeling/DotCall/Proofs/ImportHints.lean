import DotCall.Proofs.ReorderedImpls

/-!
# Hints at traits to import

A failed call names the traits that would have supplied the method if they had been in
scope.  They are sought by a loop of its own, which asks the traits for their methods
and passes over a trait that it has found already, while gathering asks the impls.  Both
come to the same: a trait is named exactly if bringing it into scope makes gathering find
an extension candidate of it, and bringing in any other changes no candidate.
-/

namespace DotCall

open TypeStore

/-- Only a type of `s` itself is written like it. -/
theorem TypeStore.WrittenAlike.eq_of_has {s x y : TypeStore} {t u : TypeId}
    (h : s.WrittenAlike x y t u) (hx : Quiet s x) (hy : Quiet s y) (ht : s.Has t) : u = t := by
  obtain ⟨tree, hleft, hright, -⟩ := h
  have htree : s.written t = tree := (hx.written_eq ht).symm.trans hleft.2
  have hsame : y.written u = y.written t := by rw [hright.2, hy.written_eq ht, htree]
  exact hy.finish.wellFormed.written_injective hright.1 (hy.has ht) hsame

/-- What two runs from `s` found is the same candidate.  The type that it expects is the
same, too, though the runs may know it under different numbers: these depend on what else
was interned before. -/
structure Candidate.Unchanged (s x y : TypeStore) (c c' : Candidate) : Prop where
  eq : c' = { c with expected := c'.expected }
  expected : s.WrittenAlike x y c.expected c'.expected

namespace Candidate

variable {s x y : TypeStore} {c c' : Candidate}

/-- Candidates for a type of the store that agree are the same. -/
theorem Agree.unchanged (h : c.Agree (s.WrittenAlike x y) c') (hx : Quiet s x) (hy : Quiet s y)
    (hself : s.Has c.self) : c.Unchanged s x y c' := by
  have hsame : c'.self = c.self := h.self.eq_of_has hx hy hself
  refine ⟨?_, h.expected⟩
  obtain ⟨origin, standing, method, passing, self, arity, expected⟩ := c'
  obtain ⟨rfl, rfl, rfl, rfl, rfl, -, -⟩ := h
  rw [show self = c.self from hsame]

/-- A candidate that is unchanged is one under the same precedence. -/
theorem Unchanged.candidate? (h : c.Unchanged s x y c') (p : Precedence) :
    Option.Rel (Unchanged s x y) ((Definition.method c).candidate? p)
      ((Definition.method c').candidate? p) := by
  have hstanding : c'.standing = c.standing := by rw [h.eq]
  cases p with
  | inherent =>
      simp only [Definition.candidate?, Definition.inherent?, hstanding]
      split
      · exact .some h
      · exact .none
  | extension =>
      simp only [Definition.candidate?, Definition.extension?, hstanding]
      split
      · exact .none
      · exact .some h

end Candidate

namespace Resolver

variable {r : Resolver} {d : Declarations} {s : TypeStore} {method : Symbol} {steps : List Step}
  {visible : List TraitId} {id : ImplId} {t : TraitId}

/-- An impl contributes a method for its own self type, with its standing in the scope. -/
theorem self_of_gatherImpl {c : Candidate}
    (h : ((r.gatherImpl method steps visible id).run s).1 = some (.method c)) :
    ∃ decl, r.db.impl? id = some decl ∧ c.self = decl.self ∧
      decl.standing? visible = some c.standing := by
  unfold gatherImpl at h
  split at h
  · next decl m hdecl hm =>
      split at h
      · cases h
      · next standing passing hstanding hpassing =>
          simp only [Candidate.make, bind_assoc, pure_bind, run_bind] at h
          split at h
          · cases h
            exact ⟨decl, hdecl, rfl, hstanding⟩
          · cases h
      · simp only [run_bind] at h
        split at h <;> cases h
  · cases h

/-- An impl contributes the same in two scopes that both have its trait, or both not. -/
theorem gatherImpl_congr {visible' : List TraitId}
    (h : ∀ own, (r.db.impl? id).bind (·.trait?) = some own → (own ∈ visible' ↔ own ∈ visible)) :
    r.gatherImpl method steps visible' id = r.gatherImpl method steps visible id := by
  unfold gatherImpl
  cases hdecl : r.db.impl? id with
  | none => rfl
  | some decl =>
      have hstanding : decl.standing? visible' = decl.standing? visible := by
        unfold ImplDecl.standing?
        cases htrait : decl.trait? with
        | none => rfl
        | some own =>
            have hown : own ∈ visible' ↔ own ∈ visible := h own (by rw [hdecl]; exact htrait)
            simp only [hown]
      cases r.db.methodOfImpl? id method with
      | none => rfl
      | some m => simp only [hstanding]

/-- The impls of a trait that is in scope contribute extension candidates of it. -/
theorem standing?_eq_extension {decl : ImplDecl} :
    decl.standing? visible = some (.extension t) ↔ decl.trait? = some t ∧ t ∈ visible := by
  unfold ImplDecl.standing?
  cases decl.trait? with
  | none => simp
  | some own =>
      by_cases hown : own ∈ visible
      · simp only [hown, if_true, Option.some.injEq, Standing.extension.injEq]
        exact ⟨fun heq => ⟨heq, heq ▸ hown⟩, And.left⟩
      · simp only [hown, if_false, reduceCtorEq, Option.some.injEq, false_iff, not_and]
        exact fun heq => heq ▸ hown

/-- Impls provide the methods of their traits. -/
theorem methodOfImpl?_eq (hdb : r.db = d.database) {decl : ImplDecl}
    (hdecl : r.db.impl? id = some decl) (htrait : decl.trait? = some t) (method : Symbol) :
    r.db.methodOfImpl? id method = r.db.methodOfTrait? t method := by
  rw [hdb] at hdecl ⊢
  have himpl : d.impl? id = some decl := hdecl
  simp only [Declarations.database, Declarations.methodOfImpl?, himpl, Option.bind_some, htrait]

/-- The signature that the loop for hints reads from the trait is the one that gathering
reads from the impl, and both try the same candidate. -/
theorem contributes_method_iff (hdb : r.db = d.database) {decl : ImplDecl}
    (hdecl : r.db.impl? id = some decl) (htrait : decl.trait? = some t) (ht : t ∈ visible) :
    (∃ c, ((r.gatherImpl method steps visible id).run s).1 = some (.method c)) ↔
      r.wanted? s method steps id = some t := by
  have hstanding : decl.standing? visible = some (.extension t) :=
    standing?_eq_extension.mpr ⟨htrait, ht⟩
  have hmethod := methodOfImpl?_eq hdb hdecl htrait method
  unfold wanted? gatherImpl traitToImport?
  simp only [hdecl, hmethod, htrait, Option.bind_some, Option.map_some, List.not_mem_nil, if_false]
  cases r.db.methodOfTrait? t method with
  | none => simp only [Option.bind_none, run_pure, reduceCtorEq, exists_false]
  | some m =>
      cases hpassing : m.passing? with
      | none =>
          simp only [hstanding, hpassing, Option.bind_some, run_bind, run_pure, reduceCtorEq,
            iff_false]
          rintro ⟨c, hc⟩
          split at hc <;> cases hc
      | some passing =>
          simp only [hstanding, hpassing, Option.bind_some, run_bind]
          split
          · simp only [run_pure, Option.some.injEq, Definition.method.injEq, exists_eq']
          · simp only [run_pure, reduceCtorEq, exists_false]

/-- **An impl contributes an extension candidate** of a trait exactly if the trait is in
scope and the impl would want it to be. -/
theorem contributes_extension_iff (hdb : r.db = d.database) :
    (∃ c, ((r.gatherImpl method steps visible id).run s).1 = some (.method c) ∧
      c.standing = .extension t) ↔ t ∈ visible ∧ r.wanted? s method steps id = some t := by
  constructor
  · rintro ⟨c, hc, hstanding⟩
    obtain ⟨decl, hdecl, -, hdeclared⟩ := self_of_gatherImpl hc
    rw [hstanding] at hdeclared
    obtain ⟨htrait, ht⟩ := standing?_eq_extension.mp hdeclared
    exact ⟨ht, (contributes_method_iff hdb hdecl htrait ht).mp ⟨c, hc⟩⟩
  · rintro ⟨ht, hwanted⟩
    obtain ⟨decl, hdecl, htrait⟩ := Option.bind_eq_some_iff.mp (trait_of_wanted? hwanted)
    obtain ⟨c, hc⟩ := (contributes_method_iff hdb hdecl htrait ht).mpr hwanted
    obtain ⟨decl', hdecl', -, hstanding⟩ := self_of_gatherImpl hc
    obtain rfl : decl = decl' := Option.some.inj (hdecl.symm.trans hdecl')
    rw [standing?_eq_extension.mpr ⟨htrait, ht⟩] at hstanding
    exact ⟨c, hc, (Option.some.inj hstanding).symm⟩

/-- An impl of a trait that it would not want in scope contributes no method in any scope. -/
theorem no_method_of_unwanted (hdb : r.db = d.database)
    (htrait : (r.db.impl? id).bind (·.trait?) = some t)
    (hwanted : r.wanted? s method steps id ≠ some t) (visible : List TraitId) (c : Candidate) :
    ((r.gatherImpl method steps visible id).run s).1 ≠ some (.method c) := by
  intro hc
  obtain ⟨decl, hdecl, -, hstanding⟩ := self_of_gatherImpl hc
  rw [hdecl, Option.bind_some] at htrait
  have hextension : c.standing = .extension t := by
    simp only [ImplDecl.standing?, htrait, Option.ite_none_right_eq_some, Option.some.injEq]
      at hstanding
    exact hstanding.2.symm
  exact hwanted ((contributes_extension_iff hdb).mp ⟨c, hc, hextension⟩).2

/-- Impls contribute the same extension candidates when they are asked one after another
as when each is asked alone. -/
theorem exists_contribution_iff {o o' : Option Definition} {R : TypeId → TypeId → Prop}
    (h : Option.Rel (Definition.Agree R) o o') :
    (∃ c, o = some (.method c) ∧ c.standing = .extension t) ↔
      ∃ c, o' = some (.method c) ∧ c.standing = .extension t := by
  cases h with
  | none => rfl
  | some h =>
      cases h with
      | function => simp
      | method h => simp [h.standing]

/-- The extension candidates are those that the impls contribute. -/
theorem exists_extension_iff (hdb : r.db = d.database) (hs : s.Ordered) (hr : r.Within s)
    (hsteps : ∀ step ∈ steps, s.Has step.ty) :
    (∃ c ∈ ((r.gather method steps visible).run s).1.extension, c.standing = .extension t) ↔
      t ∈ visible ∧ ∃ id ∈ r.relevantImpls s steps, r.wanted? s method steps id = some t := by
  obtain ⟨-, found, hfound, hg⟩ := gather_alike hs hr hsteps method visible
  calc (∃ c ∈ ((r.gather method steps visible).run s).1.extension, c.standing = .extension t)
    _ ↔ ∃ o ∈ found, ∃ c, o = some (.method c) ∧ c.standing = .extension t := by
        rw [hg]
        constructor
        · rintro ⟨c, hc, hstanding⟩
          obtain ⟨o, ho, hoc⟩ := List.mem_filterMap.mp hc
          obtain rfl : o = .method c := Definition.eq_of_candidate? (p := .extension) hoc
          rcases List.mem_append.mp ho with hown | ho
          · rw [(own_of_mem_gatherOffers hown fun id => id).2] at hoc
            cases hoc
          · obtain ⟨o, ho, rfl⟩ := List.mem_filterMap.mp ho
            exact ⟨_, ho, c, rfl, hstanding⟩
        · rintro ⟨_, ho, c, rfl, hstanding⟩
          have hextension : (Definition.method c).extension? = some c := by
            simp [Definition.extension?, hstanding]
          refine ⟨c, List.mem_filterMap.mpr ⟨.method c, ?_, hextension⟩, hstanding⟩
          exact List.mem_append_right _ (List.mem_filterMap.mpr ⟨_, ho, rfl⟩)
    _ ↔ ∃ id ∈ r.relevantImpls s steps, ∃ c,
          ((r.gatherImpl method steps visible id).run s).1 = some (.method c) ∧
            c.standing = .extension t := by
        constructor
        · rintro ⟨o, ho, hc⟩
          obtain ⟨id, hid, hrel⟩ := exists_of_forall₂ hfound o ho
          exact ⟨id, hid, (exists_contribution_iff hrel).mpr hc⟩
        · rintro ⟨id, hid, hc⟩
          obtain ⟨o, ho, hrel⟩ := exists_of_forall₂ hfound.flip id hid
          exact ⟨o, ho, (exists_contribution_iff hrel).mp hc⟩
    _ ↔ t ∈ visible ∧ ∃ id ∈ r.relevantImpls s steps, r.wanted? s method steps id = some t := by
        simp only [contributes_extension_iff hdb]
        tauto

/-- What agrees with the same definition yields the same candidate. -/
theorem rel_unchanged {x y z : TypeStore} {alone o o' : Option Definition} (hx : Quiet s x)
    (hy : Quiet s y) (hz : Quiet s z) (hself : ∀ c, alone = some (.method c) → s.Has c.self)
    (h : Option.Rel (Definition.Agree (s.WrittenAlike z x)) alone o)
    (h' : Option.Rel (Definition.Agree (s.WrittenAlike z y)) alone o') (p : Precedence) :
    Option.Rel (Candidate.Unchanged s x y) (o.bind (·.candidate? p))
      (o'.bind (·.candidate? p)) := by
  cases h with
  | none => cases h'; exact .none
  | some h =>
      cases h' with
      | some h' =>
          cases h with
          | function => cases h'; cases p <;> exact .none
          | method h =>
              cases h' with
              | method h' =>
                  have hhas := hself _ rfl
                  apply Candidate.Unchanged.candidate?
                  apply ((h.comp h').imp fun _ _ ⟨_, ht, hu⟩ => ht.meet hu).unchanged hx hy
                  rwa [h.self.eq_of_has hz hx hhas]

/-- What agrees with no method yields no candidate. -/
theorem candidate?_of_no_method {R : TypeId → TypeId → Prop} {alone o : Option Definition}
    (h : Option.Rel (Definition.Agree R) alone o) (hno : ∀ c, alone ≠ some (.method c))
    (p : Precedence) : o.bind (·.candidate? p) = none := by
  cases h with
  | none => rfl
  | some h =>
      cases h with
      | function => cases p <;> rfl
      | method h => exact absurd rfl (hno _)

/-- An impl yields the same candidate, if any, when a trait that it would not want comes
into scope. -/
theorem contribution_unchanged (hdb : r.db = d.database) (hs : s.Ordered) (hr : r.Within s)
    (hsteps : ∀ step ∈ steps, s.Has step.ty)
    (hunwanted : t ∈ visible ∨ r.wanted? s method steps id ≠ some t) {x y : TypeStore}
    (hx : Quiet s x) (hy : Quiet s y) {o o' : Option Definition}
    (ho : let alone := (r.gatherImpl method steps visible id).run s
      Option.Rel (Definition.Agree (s.WrittenAlike alone.2 x)) alone.1 o)
    (ho' : let alone := (r.gatherImpl method steps (t :: visible) id).run s
      Option.Rel (Definition.Agree (s.WrittenAlike alone.2 y)) alone.1 o') (p : Precedence) :
    Option.Rel (Candidate.Unchanged s x y) (o.bind (·.candidate? p))
      (o'.bind (·.candidate? p)) := by
  by_cases hnew : (r.db.impl? id).bind (·.trait?) = some t ∧ t ∉ visible
  · obtain ⟨htrait, ht⟩ := hnew
    have hno := no_method_of_unwanted hdb htrait (hunwanted.resolve_left ht)
    rw [candidate?_of_no_method ho (hno _), candidate?_of_no_method ho' (hno _)]
    exact .none
  · have hscope : ∀ own, (r.db.impl? id).bind (·.trait?) = some own →
        (own ∈ t :: visible ↔ own ∈ visible) := by
      intro own hown
      rw [List.mem_cons, or_iff_right_of_imp]
      rintro rfl
      exact not_not.mp fun ht => hnew ⟨hown, ht⟩
    rw [gatherImpl_congr hscope] at ho'
    obtain ⟨hz, -⟩ := calm_gatherImpl_alike hs hr hsteps method visible id s (.refl hs)
    refine rel_unchanged hx hy hz (fun c hc => ?_) ho ho' p
    obtain ⟨decl, hdecl, hself, -⟩ := self_of_gatherImpl hc
    exact hself ▸ (hr id decl hdecl).1

/-- **A scope with one more trait** changes no candidate if no impl wants the trait. -/
theorem gather_unchanged (hdb : r.db = d.database) (hs : s.Ordered) (hr : r.Within s)
    (hsteps : ∀ step ∈ steps, s.Has step.ty)
    (hunwanted : t ∈ visible ∨ ∀ id ∈ r.relevantImpls s steps, r.wanted? s method steps id ≠ some t)
    (p : Precedence) :
    let g := (r.gather method steps visible).run s
    let g' := (r.gather method steps (t :: visible)).run s
    List.Forall₂ (Candidate.Unchanged s g.2 g'.2) (g.1.candidates p) (g'.1.candidates p) := by
  intro g g'
  obtain ⟨hq, hown⟩ := gatherOffers_run r hs hsteps method
  obtain ⟨hg, found, hfound, hdefinitions⟩ := gather_alike hs hr hsteps method visible
  obtain ⟨hg', found', hfound', hdefinitions'⟩ := gather_alike hs hr hsteps method (t :: visible)
  rw [hdefinitions, hdefinitions', Gathering.candidates_ofDefinitions,
    Gathering.candidates_ofDefinitions, List.filterMap_append, List.filterMap_append,
    List.filterMap_filterMap, List.filterMap_filterMap]
  apply List.rel_append
  · refine List.forall₂_same.mpr fun c hc => ?_
    obtain ⟨o, ho, hoc⟩ := List.mem_filterMap.mp hc
    obtain rfl := Definition.eq_of_candidate? hoc
    cases hown _ ho with
    | method hagree => exact ⟨rfl, (hagree.expected.left hg).right hg'⟩
  · have hasked := (List.forall₂_and_left _ _).mpr
      ⟨fun id (hid : id ∈ r.relevantImpls s steps) => hid, hfound⟩
    refine List.rel_filterMap (fun _ _ ho => ho) (forall₂_of_common hasked hfound' ?_)
    rintro id o o' ⟨hid, ho⟩ ho'
    exact contribution_unchanged hdb hs hr hsteps (hunwanted.imp_right fun h => h id hid)
      (hq.trans hg) (hq.trans hg') ho ho' p

/-- **Hints agree with gathering.**  The traits to import are found in the order of their
numbers.  A trait is among them exactly if it is out of scope and a scope with it makes
gathering find an extension candidate of it.  A scope with any other trait leaves the
candidates of both precedences as they are. -/
theorem hints_agree (hdb : r.db = d.database) (hs : s.Ordered) (hr : r.Within s)
    (hsteps : ∀ step ∈ steps, s.Has step.ty) (method : Symbol) (visible : List TraitId) :
    let found := ((r.traitsToImport method steps visible).run s).1
    found.Pairwise (· < ·) ∧ ∀ t,
      let g := (r.gather method steps visible).run s
      let g' := (r.gather method steps (t :: visible)).run s
      (t ∈ found ↔ t ∉ visible ∧ ∃ c ∈ g'.1.extension, c.standing = .extension t) ∧
      (t ∉ found → ∀ p,
        List.Forall₂ (Candidate.Unchanged s g.2 g'.2) (g.1.candidates p) (g'.1.candidates p)) := by
  intro found
  obtain ⟨-, hordered, hmem⟩ := calm_traitsToImport hr hsteps method visible s (.refl hs)
  refine ⟨hordered, fun t => ⟨?_, fun ht p => ?_⟩⟩
  · rw [hmem, exists_extension_iff hdb hs hr hsteps]
    simp only [List.mem_cons_self, true_and]
  · apply gather_unchanged hdb hs hr hsteps
    rw [hmem, not_and_or, not_not] at ht
    exact ht.imp_right fun hnone id hid hwanted => hnone ⟨id, hid, hwanted⟩

/-- Three impls for `i32`: an inherent one, one of a trait with a method of the same name,
and one of a trait whose function of the name takes no `self`. -/
def threeImpls : List ImplDecl :=
  [⟨none, [], .ofPrimitive .i32, [⟨.blank, some (.byBorrow .shared)⟩], []⟩,
    ⟨some ⟨0⟩, [], .ofPrimitive .i32, [], []⟩, ⟨some ⟨1⟩, [], .ofPrimitive .i32, [], []⟩]

/-- The program with these impls and the two traits. -/
def twoTraits : Declarations :=
  threeImpls.foldl (fun d decl => (d.addImpl new decl).2)
    ((Declarations.empty.addTrait ⟨⟨1⟩, [], [⟨.blank, some .byValue⟩]⟩).2.addTrait
      ⟨⟨2⟩, [], [⟨.blank, none⟩]⟩).2

/-- The first of these traits is hinted at and supplies a candidate; the second changes
none. -/
theorem hints_agree_two :
    let r := twoTraits.resolver {} .empty
    let steps : List Step := [⟨.ofPrimitive .i32, false⟩]
    let gathered := fun visible => (r.gather .blank steps visible).run new
    ((r.traitsToImport .blank steps []).run new).1 = [⟨0⟩] ∧
      (∃ c ∈ (gathered [⟨0⟩]).1.extension, c.standing = .extension ⟨0⟩) ∧
      ∀ p, List.Forall₂ (Candidate.Unchanged new (gathered []).2 (gathered [⟨1⟩]).2)
        ((gathered []).1.candidates p) ((gathered [⟨1⟩]).1.candidates p) := by
  intro r steps gathered
  have hwithin : r.Within new := by
    intro id decl hdecl
    have hmem : decl ∈ threeImpls := Array.mem_toList_iff.mpr (Array.mem_of_getElem? hdecl)
    have hall : ∀ decl ∈ threeImpls, new.Has decl.self ∧ decl.conditions = [] := by decide
    obtain ⟨hself, hconditions⟩ := hall decl hmem
    exact ⟨hself, by simp [hconditions]⟩
  have hsteps : ∀ step ∈ steps, new.Has step.ty := by
    simp only [steps, List.forall_mem_singleton]
    decide
  have hfound : ((r.traitsToImport .blank steps []).run new).1 = [⟨0⟩] := by cbv
  obtain ⟨-, hagree⟩ := hints_agree (r := r) (d := twoTraits) rfl new_sound.ordered hwithin hsteps
    .blank []
  rw [hfound] at hagree
  refine ⟨hfound, ?_, ?_⟩
  · exact ((hagree ⟨0⟩).1.mp (by simp)).2
  · exact (hagree ⟨1⟩).2 (by simp)

end Resolver

end DotCall
