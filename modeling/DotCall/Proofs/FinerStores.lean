import DotCall.Proofs.PatternMatching
import DotCall.Proofs.TwinStores

/-!
# A store and one that knows more

Inference goes on and links more variables.  The store of later is finer: every
assignment that it allows was allowed before.  The two need not hold the same types
and variables, and while the same work is done on both, new variables come to be
numbered differently and links to be made at different places.  So nothing is said
about links here, only about what they allow.

What unifies in the finer store unifies in the other one, too, and the stores stay
related (`Refines.unify_ok`, `Finer.unified`).  A type that is decided on the left,
being no variable, has the same outermost layer on the right (`Refines.layer`).
-/

namespace DotCall

namespace TypeStore

section Allowing

variable {s s' : TypeStore} {σ τ : Assignment}

/-- Only the variables of a store matter to what it allows. -/
theorem WellFormed.allows_congr (h : s.WellFormed) (heq : ∀ id < s.variableCount, σ id = τ id)
    (hσ : s.Allows σ) : s.Allows τ := by
  intro id t hb
  rw [← heq id (lt_of_binding hb (by simp)), hσ id t hb]
  exact Tree.subst_congr fun i hi => heq i (h.var_lt_of_written hi)

/-- A new checkpoint allows the same assignments. -/
theorem opened_allows : s.opened.Allows σ ↔ s.Allows σ := by
  have hvalue : s.opened.value σ = s.value σ := value_congr rfl
  have hbinding : s.opened.binding = s.binding := rfl
  rw [Allows, Allows, hvalue, hbinding]

/-- Types that are written alike have the same value when their variables have. -/
theorem Pairing.Pairs.value_eq {p : Pairing} {x y : TypeStore} {t u : TypeId}
    (h : p.Pairs x y t u) (hστ : ∀ i, p.known i → τ i = σ (p.rename i)) :
    y.value σ u = x.value τ t := by
  rw [value, value, h.written, Tree.rename, Tree.subst_subst]
  refine Tree.subst_congr fun i hi => ?_
  rw [Tree.subst_var]
  exact (hστ i (h.known i hi)).symm

end Allowing

/-- A type in which an error or a parameter is written is no variable, and stands at
the end of its links. -/
theorem Sound.root_of_not_clean {s : TypeStore} (h : s.Sound) {t : TypeId} (ht : ¬ s.Clean t) :
    s.root t = t := by
  refine root_of_no_link (link?_eq_none.mpr fun id u hn _ => ht ?_)
  rw [Clean, h.wellFormed.summary_node, hn]
  exact ⟨rfl, rfl⟩

/-- Two stores of which the right one allows no more than the left one.  A renaming
takes the known variables to the right; on all other atoms the stores agree. -/
structure Finer where
  left : TypeStore
  right : TypeStore
  pairing : Pairing
  leftSound : left.Sound
  rightSound : right.Sound
  injective : ∀ {i j}, pairing.known i → pairing.known j →
    pairing.rename i = pairing.rename j → i = j
  known_lt : ∀ {i}, pairing.known i →
    i < left.variableCount ∧ pairing.rename i < right.variableCount
  allows : ∀ {σ}, right.Allows σ →
    ∃ τ, left.Allows τ ∧ ∀ i, pairing.known i → τ i = σ (pairing.rename i)
  atom : ∀ {t a}, left.node t = .atom a → (∀ id, a ≠ .var id) → left.Has t →
    right.Has t ∧ right.node t = .atom a

namespace Finer

variable {w : Finer} {t u : TypeId}

/-- The types `t` and `u` are written alike. -/
def Pairs (w : Finer) (t u : TypeId) : Prop := w.pairing.Pairs w.left w.right t u

/-- Allowed assignments of both sides that agree on the known variables. -/
structure Agree (w : Finer) (σ τ : Assignment) : Prop where
  right : w.right.Allows σ
  left : w.left.Allows τ
  known : ∀ i, w.pairing.known i → τ i = σ (w.pairing.rename i)

/-- Some assignments agree. -/
theorem exists_agree (w : Finer) (σ : Assignment) : ∃ τ, w.Agree (w.right.completed σ) τ := by
  have hσ := w.rightSound.ordered.allows_completed σ
  obtain ⟨τ, hτ, hknown⟩ := w.allows hσ
  exact ⟨τ, hσ, hτ, hknown⟩

/-- The type `u` says on the right what `t` says on the left: whatever is allowed, both
have the same value.  Errors and parameters are looked for in what is written, so
where there are any, both are written alike. -/
structure Refines (w : Finer) (t u : TypeId) : Prop where
  left : w.left.Has t
  right : w.right.Has u
  value : ∀ {σ τ}, w.Agree σ τ → w.right.value σ u = w.left.value τ t
  error : (w.right.summary u).hasError = (w.left.summary t).hasError
  param : (w.right.summary u).hasParam = (w.left.summary t).hasParam
  unclean : ¬ w.left.Clean t → w.Pairs t u

/-- Paired types refine each other. -/
theorem Pairs.refines (h : w.Pairs t u) : w.Refines t u where
  left := h.left
  right := h.right
  value hστ := Pairing.Pairs.value_eq h hστ.known
  error := Pairing.Pairs.fact_eq h w.leftSound.wellFormed w.rightSound.wellFormed
    Summary.Tracks.hasError (by simp [Atom.IsError])
  param := Pairing.Pairs.fact_eq h w.leftSound.wellFormed w.rightSound.wellFormed
    Summary.Tracks.hasParam (by simp [Atom.IsParam])
  unclean _ := h

namespace Refines

/-- What is finer is clean when what it refines is. -/
theorem clean_iff (h : w.Refines t u) : w.right.Clean u ↔ w.left.Clean t := by
  rw [Clean, Clean, h.error, h.param]

/-- Errors occur in both or in neither. -/
theorem hasError_iff (h : w.Refines t u) :
    (w.right.meaning u).HasError ↔ (w.left.meaning t).HasError := by
  have hl := w.leftSound.hasError_iff t
  have hr := w.rightSound.hasError_iff u
  rw [h.error] at hr
  exact hr.symm.trans hl

/-- Following links on both sides changes nothing. -/
theorem root (h : w.Refines t u) : w.Refines (w.left.root t) (w.right.root u) := by
  by_cases hc : w.left.Clean t
  · have hl := w.leftSound.clean_root hc
    have hr := w.rightSound.clean_root (h.clean_iff.mpr hc)
    exact
      { left := w.leftSound.ordered.has_root h.left
        right := w.rightSound.ordered.has_root h.right
        value := fun hστ => by
          rw [w.leftSound.ordered.value_root hστ.left, w.rightSound.ordered.value_root hστ.right]
          exact h.value hστ
        error := hr.1.trans hl.1.symm
        param := hr.2.trans hl.2.symm
        unclean := fun hbad => absurd hl hbad }
  · rw [w.leftSound.root_of_not_clean hc,
      w.rightSound.root_of_not_clean fun hr => hc (h.clean_iff.mp hr)]
    exact h

/-- **What is decided stays decided.**  A type without a link that is no variable is
the same atom on the right, under the same handle, or has the same former there. -/
theorem layer (h : w.Refines t u) (hu : w.right.link? u = none)
    (hv : ∀ id, w.left.node t ≠ .atom (.var id)) :
    (u = t ∧ w.right.node u = w.left.node t) ∨
      ∃ f args parts, w.left.node t = .app f args ∧ w.right.node u = .app f parts := by
  -- whatever is assigned, the value on the left shows the layer, and so does the meaning on
  -- the right
  obtain ⟨τ, hστ⟩ := w.exists_agree fun id => .atom (.var id)
  have hvalue := h.value hστ
  rw [w.rightSound.ordered.value_completed, Tree.subst_self] at hvalue
  have hroot := root_of_no_link hu
  cases hn : w.left.node t with
  | atom a =>
      have ha : ∀ id, a ≠ .var id := fun id heq => hv id (heq ▸ hn)
      rw [value_of_atom hn ha] at hvalue
      obtain ⟨hhas, hnode⟩ := w.atom hn ha h.left
      cases hm : w.right.node u with
      | atom b =>
          rw [meaning_of_atom (by rw [hroot, hm])] at hvalue
          obtain rfl := Tree.atom.inj hvalue
          exact .inl ⟨w.rightSound.wellFormed.node_injective h.right hhas (hm.trans hnode.symm),
            rfl⟩
      | app g parts =>
          rw [w.rightSound.ordered.meaning_of_app (by rw [hroot, hm])] at hvalue
          cases hvalue
  | app f args =>
      rw [w.leftSound.wellFormed.value_of_app hn] at hvalue
      cases hm : w.right.node u with
      | atom b =>
          rw [meaning_of_atom (by rw [hroot, hm])] at hvalue
          cases hvalue
      | app g parts =>
          rw [w.rightSound.ordered.meaning_of_app (by rw [hroot, hm])] at hvalue
          obtain ⟨rfl, -⟩ := Tree.app.inj hvalue
          exact .inr ⟨g, args, parts, rfl, rfl⟩

end Refines

/-- Both stores went on working and allow no more than before, and what was known
still is. -/
structure Leads (w w' : Finer) : Prop where
  left : Works w.left w'.left
  right : Works w.right w'.right
  allowsLeft : ∀ {τ}, w'.left.Allows τ → w.left.Allows τ
  allowsRight : ∀ {σ}, w'.right.Allows σ → w.right.Allows σ
  known : ∀ {i}, w.pairing.known i → w'.pairing.known i
  rename : ∀ {i}, w.pairing.known i → w'.pairing.rename i = w.pairing.rename i

namespace Leads

variable {w' w'' : Finer}

theorem refl (w : Finer) : w.Leads w :=
  ⟨.refl w.leftSound.ordered, .refl w.rightSound.ordered, fun h => h, fun h => h, fun h => h,
    fun _ => rfl⟩

/-- Stores lead on one after the other. -/
theorem trans (h : w.Leads w') (h' : w'.Leads w'') : w.Leads w'' where
  left := h.left.trans h'.left
  right := h.right.trans h'.right
  allowsLeft hτ := h.allowsLeft (h'.allowsLeft hτ)
  allowsRight hσ := h.allowsRight (h'.allowsRight hσ)
  known hi := h'.known (h.known hi)
  rename hi := (h'.rename (h.known hi)).trans (h.rename hi)

/-- Types that were paired stay paired. -/
theorem pairs (h : w.Leads w') (hp : w.Pairs t u) : w'.Pairs t u :=
  Pairing.Pairs.grow hp h.left h.right h.known h.rename

/-- Assignments that agree later agree before. -/
theorem agree (h : w.Leads w') {σ τ : Assignment} (hστ : w'.Agree σ τ) : w.Agree σ τ where
  right := h.allowsRight hστ.right
  left := h.allowsLeft hστ.left
  known i hi := by rw [hστ.known i (h.known hi), h.rename hi]

/-- Types that were refined stay refined, for the later assignments are among the earlier
ones. -/
theorem refines (h : w.Leads w') (hr : w.Refines t u) : w'.Refines t u where
  left := h.left.grows.has hr.left
  right := h.right.grows.has hr.right
  value {σ τ} hστ := by
    rw [w.rightSound.wellFormed.value_grows w'.rightSound.wellFormed h.right.grows hr.right,
      w.leftSound.wellFormed.value_grows w'.leftSound.wellFormed h.left.grows hr.left]
    exact hr.value (h.agree hστ)
  error := by rw [h.left.grows.summary_eq hr.left, h.right.grows.summary_eq hr.right, hr.error]
  param := by rw [h.left.grows.summary_eq hr.left, h.right.grows.summary_eq hr.right, hr.param]
  unclean hc := h.pairs (hr.unclean fun hclean => hc ((h.left.grows.clean_iff hr.left).mpr hclean))

end Leads

/-- Quiet work on either side. -/
def quiet (w : Finer) {x y : TypeStore} (hx : Quiet w.left x) (hy : Quiet w.right y) : Finer where
  left := x
  right := y
  pairing := w.pairing
  leftSound := w.leftSound.quiet hx
  rightSound := w.rightSound.quiet hy
  injective := w.injective
  known_lt hi := ⟨Nat.lt_of_lt_of_le (w.known_lt hi).1 hx.grows.count_le,
    Nat.lt_of_lt_of_le (w.known_lt hi).2 hy.grows.count_le⟩
  allows {σ} hσ := by
    obtain ⟨τ, hτ, hknown⟩ := w.allows ((hy.start.allows_iff_of_keeps hy.finish hy.keeps).mp hσ)
    exact ⟨τ, (hx.start.allows_iff_of_keeps hx.finish hx.keeps).mpr hτ, hknown⟩
  atom {t a} hn hv ht := by
    have hold : w.left.Has t := hx.has_of_atom ht hn hv
    obtain ⟨hhas, hnode⟩ := w.atom ((hx.node_eq hold).symm.trans hn) hv hold
    exact ⟨hy.has hhas, (hy.node_eq hhas).trans hnode⟩

/-- Quiet work on either side leads on. -/
theorem leads_quiet {x y : TypeStore} (hx : Quiet w.left x) (hy : Quiet w.right y) :
    w.Leads (w.quiet hx hy) where
  left := hx.toWorks
  right := hy.toWorks
  allowsLeft := (hx.start.allows_iff_of_keeps hx.finish hx.keeps).mp
  allowsRight := (hy.start.allows_iff_of_keeps hy.finish hy.keeps).mp
  known hi := hi
  rename _ := rfl

/-- Opening a checkpoint on both sides. -/
def opened (w : Finer) : Finer where
  left := w.left.opened
  right := w.right.opened
  pairing := w.pairing
  leftSound := w.leftSound.opened
  rightSound := w.rightSound.opened
  injective := w.injective
  known_lt := w.known_lt
  allows hσ := by
    obtain ⟨τ, hτ, hknown⟩ := w.allows (opened_allows.mp hσ)
    exact ⟨τ, opened_allows.mpr hτ, hknown⟩
  atom := w.atom

/-- Types stay refined under a new checkpoint. -/
theorem Refines.opened (h : w.Refines t u) : w.opened.Refines t u where
  left := h.left
  right := h.right
  value {σ τ} hστ := by
    have hvalue : ∀ s : TypeStore, s.opened.value = s.value :=
      fun s => funext fun _ => value_congr rfl
    have hagree : w.Agree σ τ :=
      ⟨opened_allows.mp hστ.right, opened_allows.mp hστ.left, hστ.known⟩
    exact (congrFun (congrFun (hvalue w.right) σ) u).trans
      ((h.value hagree).trans (congrFun (congrFun (hvalue w.left) τ) t).symm)
  error := h.error
  param := h.param
  unclean hc := Pairing.Pairs.congr (h.unclean hc) rfl rfl

/-- A new variable on both sides becomes known. -/
def addVar (w : Finer) : Finer where
  left := (newVar.run w.left).2
  right := (newVar.run w.right).2
  pairing := w.pairing.extend w.left.variableCount w.right.variableCount
  leftSound := w.leftSound.quiet w.leftSound.ordered.newVar_run.1
  rightSound := w.rightSound.quiet w.rightSound.ordered.newVar_run.1
  injective := Pairing.extend_injective w.injective w.known_lt
  known_lt {i} hi := by
    obtain ⟨-, hadd⟩ := w.leftSound.ordered.newVar_run
    obtain ⟨-, hadd'⟩ := w.rightSound.ordered.newVar_run
    rw [hadd.count, hadd'.count]
    exact Pairing.extend_lt w.known_lt hi
  allows {σ} hσ := by
    obtain ⟨hq, -⟩ := w.leftSound.ordered.newVar_run
    obtain ⟨hq', -⟩ := w.rightSound.ordered.newVar_run
    obtain ⟨τ, hτ, hknown⟩ := (w.quiet hq hq').allows hσ
    replace hτ := (hq.start.allows_iff_of_keeps hq.finish hq.keeps).mp hτ
    -- the left store does not know the new variable yet, so it may be assigned anything
    let τ' : Assignment := fun id =>
      if id = w.left.variableCount then σ w.right.variableCount else τ id
    refine ⟨τ', (hq.start.allows_iff_of_keeps hq.finish hq.keeps).mpr ?_, fun i hi => ?_⟩
    · refine w.leftSound.wellFormed.allows_congr (fun id hid => ?_) hτ
      exact (if_neg (Nat.ne_of_lt hid)).symm
    · rcases hi with hi | rfl
      · have hne := Nat.ne_of_lt (w.known_lt hi).1
        rw [Pairing.extend_rename_of_ne hne]
        exact (if_neg hne).trans (hknown i hi)
      · rw [Pairing.extend_rename_self]
        exact if_pos rfl
  atom := (w.quiet w.leftSound.ordered.newVar_run.1 w.rightSound.ordered.newVar_run.1).atom

/-- A new variable on both sides leads on. -/
theorem leads_addVar : w.Leads w.addVar where
  left := w.leftSound.ordered.newVar_run.1.toWorks
  right := w.rightSound.ordered.newVar_run.1.toWorks
  allowsLeft := (leads_quiet w.leftSound.ordered.newVar_run.1
    w.rightSound.ordered.newVar_run.1).allowsLeft
  allowsRight := (leads_quiet w.leftSound.ordered.newVar_run.1
    w.rightSound.ordered.newVar_run.1).allowsRight
  known := .inl
  rename hi := Pairing.extend_rename_of_ne (Nat.ne_of_lt (w.known_lt hi).1)

/-- The two new variables are paired. -/
theorem pairs_addVar : w.addVar.Pairs (newVar.run w.left).1 (newVar.run w.right).1 :=
  Pairing.pairs_newVar w.leftSound.ordered w.rightSound.ordered

section Unifying

variable {a b a' b' : TypeId}

/-- **Failure lasts.**  What unifies on the right unifies on the left. -/
theorem Refines.unify_ok (ha : w.Refines a a') (hb : w.Refines b b')
    (hok : ((unify a' b').run w.right).1 = .ok ()) : ((unify a b).run w.left).1 = .ok () := by
  by_cases hc : w.left.Clean a ∧ w.left.Clean b
  · -- an assignment that solves the equation on the right has a partner that solves it on the left
    obtain ⟨hca, hcb⟩ := hc
    have hsound := (w.rightSound.unify_sound ha.right hb.right).1
    obtain ⟨hσ, hsolves⟩ := (w.rightSound.allows_of_unify_ok ha.right hb.right
      (ha.clean_iff.mpr hca) (hb.clean_iff.mpr hcb) hok _).mp
      (hsound.ordered.allows_completed fun id => .atom (.var id))
    obtain ⟨τ, hτ, hknown⟩ := w.allows hσ
    have hdecides := w.leftSound.unify_decides ha.left hb.left hca hcb
    cases hr : ((unify a b).run w.left).1 with
    | ok _ => rfl
    | error c =>
        rw [hr] at hdecides
        refine absurd ⟨hτ, ?_⟩ (hdecides τ)
        have hagree : w.Agree _ τ := ⟨hσ, hτ, hknown⟩
        simpa [Solves] using (ha.value hagree).symm.trans (hsolves.trans (hb.value hagree))
  · have hc' : ¬ (w.right.Clean a' ∧ w.right.Clean b') := by
      rwa [ha.clean_iff, hb.clean_iff]
    refine (w.leftSound.unify_of_not_clean ha.left hb.left hc).2.mpr ?_
    rcases (w.rightSound.unify_of_not_clean ha.right hb.right hc').2.mp hok with he | he | hroot
    · exact .inl (ha.hasError_iff.mp he)
    · exact .inr (.inl (hb.hasError_iff.mp he))
    · -- neither is clean, so they are written as they are on the left
      have hboth : w.right.Clean a' ↔ w.right.Clean b' := by
        rw [← w.rightSound.clean_root_iff, hroot, w.rightSound.clean_root_iff]
      have hna : ¬ w.left.Clean a := fun h =>
        hc ⟨h, hb.clean_iff.mp (hboth.mp (ha.clean_iff.mpr h))⟩
      have hnb : ¬ w.left.Clean b := fun h =>
        hc ⟨ha.clean_iff.mp (hboth.mpr (hb.clean_iff.mpr h)), h⟩
      rw [w.rightSound.root_of_not_clean fun h => hna (ha.clean_iff.mp h),
        w.rightSound.root_of_not_clean fun h => hnb (hb.clean_iff.mp h)] at hroot
      have hpa := ha.unclean hna
      have hpb := hb.unclean hnb
      rw [← hroot] at hpb
      rw [Pairing.Pairs.left_unique hpa hpb w.leftSound.wellFormed w.injective]
      exact .inr (.inr rfl)

/-- Unification that succeeds on both sides leaves the right store finer. -/
def unified (w : Finer) (ha : w.Refines a a') (hb : w.Refines b b')
    (hok : ((unify a' b').run w.right).1 = .ok ()) : Finer where
  left := ((unify a b).run w.left).2
  right := ((unify a' b').run w.right).2
  pairing := w.pairing
  leftSound := (w.leftSound.unify_sound ha.left hb.left).1
  rightSound := (w.rightSound.unify_sound ha.right hb.right).1
  injective := w.injective
  known_lt {i} hi := by
    rw [(w.leftSound.unify_sound ha.left hb.left).2.count,
      (w.rightSound.unify_sound ha.right hb.right).2.count]
    exact w.known_lt hi
  allows {σ} hσ := by
    have hokl := ha.unify_ok hb hok
    by_cases hc : w.left.Clean a ∧ w.left.Clean b
    · obtain ⟨hσ, hsolves⟩ := (w.rightSound.allows_of_unify_ok ha.right hb.right
        (ha.clean_iff.mpr hc.1) (hb.clean_iff.mpr hc.2) hok σ).mp hσ
      obtain ⟨τ, hτ, hknown⟩ := w.allows hσ
      have hagree : w.Agree σ τ := ⟨hσ, hτ, hknown⟩
      refine ⟨τ, ?_, hknown⟩
      refine (w.leftSound.allows_of_unify_ok ha.left hb.left hc.1 hc.2 hokl τ).mpr ⟨hτ, ?_⟩
      exact (ha.value hagree).symm.trans (hsolves.trans (hb.value hagree))
    · have hc' : ¬ (w.right.Clean a' ∧ w.right.Clean b') := by
        rwa [ha.clean_iff, hb.clean_iff]
      have hl := Quiet.of_shortens (w.leftSound.unify_of_not_clean ha.left hb.left hc).1
        w.leftSound.ordered
      have hr := Quiet.of_shortens (w.rightSound.unify_of_not_clean ha.right hb.right hc').1
        w.rightSound.ordered
      exact (w.quiet hl hr).allows hσ
  atom {t a} hn hv ht := by
    obtain ⟨-, hl⟩ := w.leftSound.unify_sound ha.left hb.left
    obtain ⟨-, hr⟩ := w.rightSound.unify_sound ha.right hb.right
    rw [hl.node_eq] at hn
    obtain ⟨hhas, hnode⟩ := w.atom hn hv (hl.has_iff.mp ht)
    exact ⟨hr.has_iff.mpr hhas, hr.node_eq ▸ hnode⟩

/-- **When the finer side unifies, so does the other**, and the two lead on: what the
finer store allows is still allowed by the coarser one. -/
theorem leads_unified (ha : w.Refines a a') (hb : w.Refines b b')
    (hok : ((unify a' b').run w.right).1 = .ok ()) : w.Leads (w.unified ha hb hok) := by
  obtain ⟨hsl, hl⟩ := w.leftSound.unify_sound ha.left hb.left
  obtain ⟨hsr, hr⟩ := w.rightSound.unify_sound ha.right hb.right
  exact
    { left := .of_binds hl w.leftSound.ordered hsl.ordered
      right := .of_binds hr w.rightSound.ordered hsr.ordered
      allowsLeft := hl.toExtends.allows w.leftSound.ordered hsl.ordered
      allowsRight := hr.toExtends.allows w.rightSound.ordered hsr.ordered
      known := fun hi => hi
      rename := fun _ => rfl }

end Unifying

end Finer

end TypeStore

end DotCall
