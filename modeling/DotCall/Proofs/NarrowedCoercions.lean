import DotCall.Proofs.CoercionTargets

/-!
# Coercions of what inference has narrowed

Inference goes on and a type comes to mean more.  A rule that had matched it by an
assignment may match it no more, because what was assigned was taken back and
something else was found out.  A rule that covers the type, however, keeps to it.

What the rule makes of the type before and after is compared by `Tree.Between`: a tree
lies between another one and what an assignment makes of it.  The two need not be
related more closely, since a parameter that only the target mentions stands for a
new variable each time.  Coercions that are covered preserve this (`between_derefs`,
`between_unsizes`), and a pattern that matches the last of the three trees matches the
middle one as well (`Between.matching`).
-/

namespace DotCall

open TypeStore DotCall.Tree

namespace Tree

/-- What the assignment makes of the tree is an instance of the pattern.  An error on
either side is let pass. -/
def FitsUnder (φ : Assignment) (pattern : Tree) (n : Nat) (tree : Tree) : Prop :=
  tree.HasError ∨ pattern.HasError ∨
    ∃ args : List Tree, args.length = n ∧ pattern.fill args = tree.subst φ

/-- The tree `u` is an instance of `t`, and what `φ` makes of `t` is an instance of
`u`. -/
structure Between (φ : Assignment) (t u : Tree) : Prop where
  above : ∃ τ : Assignment, (∀ id, .var id ∈ t.atoms → (τ id).Proper) ∧ t.subst τ = u
  below : ∃ ψ : Assignment, u.subst ψ = t.subst φ

namespace Between

variable {φ : Assignment} {t u pattern : Tree} {f : Former} {n : Nat}

/-- Under a proper assignment errors neither come nor go. -/
theorem hasError_iff (h : Between φ t u) : u.HasError ↔ t.HasError := by
  obtain ⟨τ, hτ, rfl⟩ := h.above
  refine ⟨fun hu => ?_, HasError.subst⟩
  obtain ⟨a, ha, hbad⟩ := hu
  rcases mem_atoms_subst.mp ha with ⟨ha, -⟩ | ⟨id, hid, ha⟩
  · exact ⟨a, ha, hbad⟩
  · exact absurd hbad (hτ id hid a ha).1

/-- Parameters neither come nor go either. -/
theorem hasParam_iff (h : Between φ t u) : u.HasParam ↔ t.HasParam := by
  obtain ⟨τ, hτ, rfl⟩ := h.above
  refine ⟨fun hu => ?_, HasParam.subst⟩
  obtain ⟨a, ha, hbad⟩ := hu
  rcases mem_atoms_subst.mp ha with ⟨ha, -⟩ | ⟨id, hid, ha⟩
  · exact ⟨a, ha, hbad⟩
  · exact absurd hbad (hτ id hid a ha).2

/-- So the narrower tree is proper when the wider one is. -/
theorem proper_iff (h : Between φ t u) : u.Proper ↔ t.Proper := by
  rw [Tree.proper_iff, Tree.proper_iff, h.hasError_iff, h.hasParam_iff]

/-- A head that is there stays the same; only a variable can gain one. -/
theorem head?_eq (h : Between φ t u) (hhead : t.head? ≠ none) : u.head? = t.head? := by
  obtain ⟨τ, -, rfl⟩ := h.above
  exact head?_subst hhead

/-- What lies below a compound tree is compound, and so are the parts. -/
theorem part {ts : List Tree} (h : Between φ (.app f (t :: ts)) u) :
    ∃ v vs, u = .app f (v :: vs) ∧ Between φ t v := by
  obtain ⟨⟨τ, hτ, rfl⟩, ψ, hψ⟩ := h
  rw [subst_app, List.map_cons] at hψ ⊢
  refine ⟨_, _, rfl, ⟨τ, fun id hid => hτ id ?_, rfl⟩, ψ, ?_⟩
  · exact mem_atoms_app.mpr ⟨t, List.mem_cons_self, hid⟩
  · rw [subst_app, subst_app, List.map_cons, List.map_cons] at hψ
    exact (List.cons.inj (Tree.app.inj hψ).2).1

/-- A former around both keeps the relation. -/
theorem wrap (h : Between φ t u) (f : Former) : Between φ (.app f [t]) (.app f [u]) := by
  obtain ⟨⟨τ, hτ, rfl⟩, ψ, hψ⟩ := h
  exact ⟨⟨τ, by simpa using hτ, by simp⟩, ψ, by simp [hψ]⟩

/-- A compound tree comes of a compound one, unless of a variable. -/
theorem exists_app {v : Tree} {vs : List Tree} (h : Between φ t (.app f (v :: vs)))
    (hhead : t.head? ≠ none) : ∃ t₁ ts, t = .app f (t₁ :: ts) := by
  obtain ⟨τ, -, hτ⟩ := h.above
  cases t with
  | atom a =>
      cases a with
      | var id => exact absurd rfl hhead
      | _ => cases hτ
  | app g ts =>
      rw [subst_app] at hτ
      obtain ⟨rfl, hts⟩ := Tree.app.inj hτ
      cases ts with
      | nil => cases hts
      | cons t₁ ts => exact ⟨t₁, ts, rfl⟩

/-- The same arguments suit the upper tree. -/
theorem suits {args : List Tree} (h : Between φ t u) (hs : pattern.Suits u args) :
    pattern.Suits t args := by
  rcases hs with he | he | ⟨σ, hσ⟩
  · exact .inl (h.hasError_iff.mp he)
  · exact .inr (.inl he)
  · obtain ⟨τ, -, rfl⟩ := h.above
    rw [subst_subst] at hσ
    exact .inr (.inr ⟨_, hσ⟩)

/-- Matching is a matter of errors and arguments for a pattern that mentions only
parameters of its own. -/
theorem matches_iff (hscoped : pattern.Scoped n) :
    pattern.Matches n t ↔ t.HasError ∨ pattern.HasError ∨
      (t.Proper ∧ ∃ args : List Tree, args.length = n ∧ ∃ σ : Assignment,
        pattern.fill args = t.subst σ) := by
  constructor
  · rintro (he | he | ⟨rfl, hbare⟩ | ⟨hproper, -, hargs⟩)
    · exact .inl he
    · exact .inr (.inl he)
    · by_cases he : t.HasError
      · exact .inl he
      have hparam : ¬ t.HasParam := by
        rintro ⟨_, ha, position, rfl⟩
        have hlt := hscoped position ha
        have hle := hbare position ha
        omega
      refine .inr (.inr ⟨Tree.proper_iff.mpr ⟨he, hparam⟩, ?_⟩)
      have hfill : t.fill (List.replicate n t) = t := Bare.fill_eq (by simpa using hbare)
      exact ⟨List.replicate n t, by simp, fun id => .atom (.var id), by rw [hfill, subst_self]⟩
    · exact .inr (.inr ⟨hproper, hargs⟩)
  · rintro (he | he | ⟨hproper, hargs⟩)
    · exact .inl he
    · exact .inr (.inl he)
    · exact .inr (.inr (.inr ⟨hproper, hscoped, hargs⟩))

/-- What matches the middle tree matches the upper one. -/
theorem matches_above (h : Between φ t u) (hscoped : pattern.Scoped n)
    (hm : pattern.Matches n u) : pattern.Matches n t := by
  rw [matches_iff hscoped] at hm ⊢
  rcases hm with he | he | ⟨hproper, args, hlen, σ, hσ⟩
  · exact .inl (h.hasError_iff.mp he)
  · exact .inr (.inl he)
  · obtain ⟨τ, -, hτ⟩ := h.above
    rw [← hτ, subst_subst] at hσ
    exact .inr (.inr ⟨h.proper_iff.mp hproper, args, hlen, _, hσ⟩)

/-- **What matches the lowest tree** matches the middle one. -/
theorem matching (h : Between φ t u) (hscoped : pattern.Scoped n) (hm : pattern.Matches n t)
    (hfits : FitsUnder φ pattern n t) : pattern.Matches n u := by
  rw [matches_iff hscoped] at hm ⊢
  rcases hfits with he | he | ⟨args, hlen, hfill⟩
  · exact .inl (h.hasError_iff.mpr he)
  · exact .inr (.inl he)
  · rcases hm with he | he | ⟨hproper, -⟩
    · exact .inl (h.hasError_iff.mpr he)
    · exact .inr (.inl he)
    · obtain ⟨ψ, hψ⟩ := h.below
      exact .inr (.inr ⟨h.proper_iff.mpr hproper, args, hlen, ψ, hfill.trans hψ.symm⟩)

end Between

end Tree

namespace Rule

variable {rule : Rule} {s : TypeStore} {φ : Assignment} {t u t' u' : Tree}

/-- A rule that does not apply to a tree with a head does not apply to what lies
below. -/
theorem Applies.of_between (h : rule.Applies s u) (hb : Between φ t u)
    (hscoped : (s.written rule.source).Scoped rule.arity) (hhead : t.head? ≠ none) :
    rule.Applies s t :=
  ⟨hhead, h.2.1.trans (hb.head?_eq hhead), hb.matches_above hscoped h.2.2⟩

/-- A rule that covers a tree applies to what lies below. -/
theorem Applies.between (h : rule.Applies s t) (hb : Between φ t u) (hrule : rule.Closed s)
    (hscoped : (s.written rule.source).Scoped rule.arity) (hcovers : rule.Covers s t) :
    rule.Applies s u := by
  have hhead := hb.head?_eq h.1
  refine ⟨hhead ▸ h.1, hhead ▸ h.2.1, ?_⟩
  obtain ⟨args, hlen, hcovers⟩ := hcovers
  obtain ⟨τ, -, hτ⟩ := hb.above
  have hmatch := (Between.matches_iff hscoped).mp h.2.2
  rw [Between.matches_iff hscoped]
  rcases hcovers with he | he | hfill
  · exact .inl (hb.hasError_iff.mpr he)
  · exact .inr (.inl he)
  · rcases hmatch with he | he | ⟨hproper, -⟩
    · exact .inl (hb.hasError_iff.mpr he)
    · exact .inr (.inl he)
    · refine .inr (.inr ⟨hb.proper_iff.mpr hproper, args.map (subst τ), by simpa using hlen,
        fun id => .atom (.var id), ?_⟩)
      rw [subst_self, ← hrule.source_fixed.subst_fill, hfill, hτ]

/-- **What a covering rule makes** of the trees lies between again. -/
theorem Yields.between (h : rule.Yields s t t') (h' : rule.Yields s u u') (hb : Between φ t u)
    (hrule : rule.Closed s) (hcovers : rule.Covers s t) : Between φ t' u' := by
  obtain ⟨args, hlen, -, hgeneral, hcovered, rfl⟩ := h
  obtain ⟨args', hlen', hproper', hgeneral', -, rfl⟩ := h'
  have hlens : args'.length = args.length := hlen'.trans hlen.symm
  obtain ⟨τ, hτ⟩ := hgeneral.2 args' hlens (hb.suits hgeneral'.1)
  have hbelow : (s.written rule.source).Suits u (args.map (subst φ)) := by
    rcases hcovered hcovers with he | he | hfill
    · exact .inl (hb.hasError_iff.mpr he)
    · exact .inr (.inl he)
    · obtain ⟨ψ, hψ⟩ := hb.below
      refine .inr (.inr ⟨ψ, ?_⟩)
      rw [← hrule.source_fixed.subst_fill, hfill, hψ]
  obtain ⟨ψ, hψ⟩ := hgeneral'.2 (args.map (subst φ)) (by simpa using hlens.symm) hbelow
  refine ⟨⟨τ, fun id hid => ?_, by rw [hrule.target_fixed.subst_fill, hτ]⟩, ψ, by
    rw [hrule.target_fixed.subst_fill, hrule.target_fixed.subst_fill, hψ]⟩
  -- the variables of the result are those of the arguments
  rcases mem_atoms_fill_iff.mp hid with ⟨hvar, -⟩ | ⟨position, arg, -, harg, hvar⟩
  · exact absurd hvar (hrule.target_fixed id)
  · have hmem : arg.subst τ ∈ args' := hτ ▸ List.mem_map_of_mem (List.mem_of_getElem? harg)
    exact fun a ha => hproper' _ hmem a (mem_atoms_subst.mpr (.inr ⟨id, hvar, ha⟩))

end Rule

section Rules

variable {rules : List Rule} {s : TypeStore} {φ : Assignment} {t u t' : Tree}
  {result? : Option Tree}

open Classical in
/-- The first rule that applies to the tree, if any does, covers it. -/
def Covered (rules : List Rule) (s : TypeStore) (tree : Tree) : Prop :=
  ∀ rule, (rules.find? fun rule => decide (rule.Applies s tree)) = some rule → rule.Covers s tree

/-- What is converted has a head, since rules are sought by it. -/
theorem Converts.head?_ne_none (h : Converts rules s t (some t')) : t.head? ≠ none := by
  intro hhead
  unfold Converts at h
  rw [List.find?_eq_none.mpr fun rule _ => by simp [Rule.Applies, hhead]] at h
  cases h

/-- **The first rule that applies** stays the first when it covers the tree. -/
theorem Tree.Between.converts (hb : Between φ t u) (hrules : ∀ rule ∈ rules, rule.Closed s)
    (hscoped : ∀ rule ∈ rules, (s.written rule.source).Scoped rule.arity)
    (hcovered : Covered rules s t) (ht : Converts rules s t (some t'))
    (hu : Converts rules s u result?) : ∃ u', result? = some u' ∧ Between φ t' u' := by
  have hhead := ht.head?_ne_none
  induction rules with
  | nil => cases ht
  | cons rule rules ih =>
      have hclosed := hrules rule List.mem_cons_self
      have hown := hscoped rule List.mem_cons_self
      unfold Converts at ht hu ih
      unfold Covered at hcovered ih
      by_cases happ : rule.Applies s t
      · rw [List.find?_cons_of_pos (by simpa using happ)] at ht hcovered
        have hcovers := hcovered rule rfl
        have happ' := happ.between hb hclosed hown hcovers
        rw [List.find?_cons_of_pos (by simpa using happ')] at hu
        obtain ⟨_, heq, hyields⟩ := ht
        cases heq
        obtain ⟨u', hresult, hyields'⟩ := hu
        exact ⟨u', hresult, hyields.between hyields' hb hclosed hcovers⟩
      · have happ' : ¬ rule.Applies s u := fun h => happ (h.of_between hb hown hhead)
        rw [List.find?_cons_of_neg (by simpa using happ)] at ht hcovered
        rw [List.find?_cons_of_neg (by simpa using happ')] at hu
        exact ih (fun rule' h => hrules rule' (List.mem_cons_of_mem _ h))
          (fun rule' h => hscoped rule' (List.mem_cons_of_mem _ h)) hcovered ht hu

end Rules

namespace Declarations

/-- No declared rule has to assign a variable of the tree to dereference it. -/
def DerefCovered (d : Declarations) (s : TypeStore) : Tree → Prop
  | .app (.ref _) (_ :: _) => True
  | tree => Covered d.derefs s tree

/-- No declared rule has to assign a variable of the tree to unsize it. -/
def UnsizeCovered (d : Declarations) (s : TypeStore) : Tree → Prop
  | .app (.array _) (_ :: _) => True
  | tree => Covered d.unsizings s tree

/-- The tree can be dereferenced the given number of times, and then be unsized if so
said, with every rule on the way covering what it is applied to. -/
def CoversSteps (d : Declarations) (s : TypeStore) (unsizes : Bool) : Nat → Tree → Prop
  | 0, tree => unsizes = true → d.UnsizeCovered s tree
  | n + 1, tree => d.DerefCovered s tree ∧
      ∀ next, d.DerefsTo s tree (some next) → d.CoversSteps s unsizes n next

variable {d : Declarations} {s : TypeStore} {φ : Assignment} {t u t' : Tree}
  {result? : Option Tree}

/-- **Dereferencing** what lies between gives what lies between. -/
theorem between_derefs (hd : d.Closed s) (hscoped : d.Scoped s) (hb : Between φ t u)
    (hcovered : d.DerefCovered s t) (ht : d.DerefsTo s t (some t'))
    (hu : d.DerefsTo s u result?) : ∃ u', result? = some u' ∧ Between φ t' u' := by
  by_cases href : ∃ b pointee rest, t = .app (.ref b) (pointee :: rest)
  · obtain ⟨b, pointee, rest, rfl⟩ := href
    obtain ⟨pointee', rest', rfl, hpointee⟩ := hb.part
    cases ht
    exact ⟨pointee', hu, hpointee⟩
  · have hnot : ∀ b pointee rest, t ≠ .app (.ref b) (pointee :: rest) := by simpa using href
    rw [derefsTo_of_not_ref hnot] at ht
    have hcovered' : Covered d.derefs s t := by
      unfold DerefCovered at hcovered
      split at hcovered
      · exact absurd rfl (hnot _ _ _)
      · exact hcovered
    rw [derefsTo_of_not_ref] at hu
    · exact hb.converts hd.deref hscoped.deref hcovered' ht hu
    · rintro b pointee rest rfl
      obtain ⟨pointee', rest', rfl⟩ := hb.exists_app ht.head?_ne_none
      exact hnot _ _ _ rfl

/-- **Unsizing** what lies between gives what lies between. -/
theorem between_unsizes (hd : d.Closed s) (hscoped : d.Scoped s) (hb : Between φ t u)
    (hcovered : d.UnsizeCovered s t) (ht : d.UnsizesTo s t (some t'))
    (hu : d.UnsizesTo s u result?) : ∃ u', result? = some u' ∧ Between φ t' u' := by
  by_cases harr : ∃ n elem rest, t = .app (.array n) (elem :: rest)
  · obtain ⟨n, elem, rest, rfl⟩ := harr
    obtain ⟨elem', rest', rfl, helem⟩ := hb.part
    cases ht
    exact ⟨.app .slice [elem'], hu, helem.wrap .slice⟩
  · have hnot : ∀ n elem rest, t ≠ .app (.array n) (elem :: rest) := by simpa using harr
    rw [unsizesTo_of_not_array hnot] at ht
    have hcovered' : Covered d.unsizings s t := by
      unfold UnsizeCovered at hcovered
      split at hcovered
      · exact absurd rfl (hnot _ _ _)
      · exact hcovered
    rw [unsizesTo_of_not_array] at hu
    · exact hb.converts hd.unsizing hscoped.unsizing hcovered' ht hu
    · rintro n elem rest rfl
      obtain ⟨elem', rest', rfl⟩ := hb.exists_app ht.head?_ne_none
      exact hnot _ _ _ rfl

end Declarations

section Later

variable {s s' : TypeStore} (hs : s.WellFormed) (hs' : s'.WellFormed) (hg : Grows s s')

include hs hs' hg

theorem Rule.Closed.written_grows {rule : Rule} (h : rule.Closed s) :
    s'.written rule.source = s.written rule.source ∧
      s'.written rule.target = s.written rule.target :=
  ⟨hs.written_grows hs' hg h.source_has, hs.written_grows hs' hg h.target_has⟩

theorem Rule.Closed.grows {rule : Rule} (h : rule.Closed s) : rule.Closed s' := by
  obtain ⟨hsource, htarget⟩ := h.written_grows hs hs' hg
  exact ⟨hg.has h.source_has, hg.has h.target_has, hsource ▸ h.source_fixed,
    htarget ▸ h.target_fixed⟩

/-- What rules make of a tree does not change as the store grows. -/
theorem converts_grows {rules : List Rule} (hrules : ∀ rule ∈ rules, rule.Closed s) {tree : Tree}
    {result? : Option Tree} : Converts rules s' tree result? ↔ Converts rules s tree result? := by
  induction rules with
  | nil => rfl
  | cons rule rules ih =>
      obtain ⟨hsource, htarget⟩ := (hrules rule List.mem_cons_self).written_grows hs hs' hg
      have happlies : rule.Applies s' tree ↔ rule.Applies s tree := by
        rw [Rule.Applies, Rule.Applies, hsource]
      have hyields : ∀ result, rule.Yields s' tree result ↔ rule.Yields s tree result := by
        intro result
        rw [Rule.Yields, Rule.Yields, Rule.Covers, Rule.Covers, hsource, htarget]
      have hrest := ih fun rule' h => hrules rule' (List.mem_cons_of_mem _ h)
      unfold Converts at hrest ⊢
      by_cases happ : rule.Applies s tree
      · rw [List.find?_cons_of_pos (by simpa using happlies.mpr happ),
          List.find?_cons_of_pos (by simpa using happ)]
        exact exists_congr fun result => and_congr_right fun _ => hyields result
      · rw [List.find?_cons_of_neg (by simpa using fun h => happ (happlies.mp h)),
          List.find?_cons_of_neg (by simpa using happ)]
        exact hrest

namespace Declarations

variable {d : Declarations} (hd : d.Closed s)

include hd

theorem Closed.grows : d.Closed s' where
  self hdecl := by
    obtain ⟨hself, hfixed⟩ := hd.self hdecl
    exact ⟨hg.has hself, hs.written_grows hs' hg hself ▸ hfixed⟩
  condition hdecl c hc := hg.has (hd.condition hdecl c hc)
  deref rule hrule := (hd.deref rule hrule).grows hs hs' hg
  unsizing rule hrule := (hd.unsizing rule hrule).grows hs hs' hg

theorem Scoped.grows (h : d.Scoped s) : d.Scoped s' where
  self hdecl := hs.written_grows hs' hg (hd.self hdecl).1 ▸ h.self hdecl
  deref rule hrule := ((hd.deref rule hrule).written_grows hs hs' hg).1 ▸ h.deref rule hrule
  unsizing rule hrule :=
    ((hd.unsizing rule hrule).written_grows hs hs' hg).1 ▸ h.unsizing rule hrule

/-- Rules read the same in a store that has grown, and so does what they say about a type.
-/
theorem derefsTo_grows {tree : Tree} {result? : Option Tree} :
    d.DerefsTo s' tree result? ↔ d.DerefsTo s tree result? := by
  unfold DerefsTo
  split
  · rfl
  · exact converts_grows hs hs' hg hd.deref

/-- The same for unsizing. -/
theorem unsizesTo_grows {tree : Tree} {result? : Option Tree} :
    d.UnsizesTo s' tree result? ↔ d.UnsizesTo s tree result? := by
  unfold UnsizesTo
  split
  · rfl
  · exact converts_grows hs hs' hg hd.unsizing

end Declarations

end Later

end DotCall
