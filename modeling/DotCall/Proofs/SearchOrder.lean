import DotCall.Call.Coercion
import DotCall.Proofs.ReachedStores
import DotCall.Proofs.TwinRuns

/-!
# What the search decides

The search goes through its places in order: by step, then by the way of passing
the receiver, then by precedence.  The candidates that match at a place are those
that accept the receiver there when they are tried alone on the store from before
the search.  That trying one candidate after another gives the same answers is
due to each trial being quiet.

The first place at which anything matches decides.  If all that matches counts as
one there, its first candidate is chosen; otherwise the call is ambiguous between
one candidate for each thing that could be meant.
-/

namespace DotCall

open TypeStore Twin

/-- The order in which ways of passing a receiver are tried. -/
def Passing.rank : Passing → Nat
  | .byValue => 0
  | .byBorrow .shared => 1
  | .byBorrow .mutable => 2

/-- The order in which groups of candidates are tried. -/
def Precedence.rank : Precedence → Nat
  | .inherent => 0
  | .extension => 1

/-- A place of the search: a step at its position, a way of passing it, and a
group of candidates. -/
structure Place where
  step : Step
  position : Nat
  passing : Passing
  precedence : Precedence
  deriving DecidableEq

/-- The lexicographic order of places. -/
def Place.Before (p q : Place) : Prop :=
  p.position < q.position ∨ p.position = q.position ∧
    (p.passing.rank < q.passing.rank ∨
      p.passing.rank = q.passing.rank ∧ p.precedence.rank < q.precedence.rank)

/-- The place is one of the search through the given steps. -/
def Place.In (p : Place) (steps : List Step) : Prop := steps[p.position]? = some p.step

/-- The ways of passing a receiver, in the order in which they are tried. -/
def Passing.all : List Passing := [.byValue, .byBorrow .shared, .byBorrow .mutable]

/-- No way of passing a receiver is left out. -/
theorem Passing.mem_all (p : Passing) : p ∈ Passing.all := by
  rcases p with _ | (_ | _) <;> simp [Passing.all]

/-- The places of one step, in order. -/
def placesOf (step : Step) (position : Nat) : List Place :=
  Passing.all.flatMap fun passing =>
    [.inherent, .extension].map (⟨step, position, passing, ·⟩)

/-- The places of a search, in order. -/
def placesIn (steps : List Step) : List Place :=
  steps.zipIdx.flatMap fun (step, position) => placesOf step position

/-- The places of a step are those of its position, one for each way of passing. -/
theorem mem_placesOf {step : Step} {position : Nat} {p : Place} :
    p ∈ placesOf step position ↔ p.step = step ∧ p.position = position := by
  obtain ⟨step', position', passing, precedence⟩ := p
  constructor
  · intro h
    simp only [placesOf, List.mem_flatMap, List.mem_map] at h
    obtain ⟨_, -, _, -, h⟩ := h
    cases h
    exact ⟨rfl, rfl⟩
  · rintro ⟨rfl, rfl⟩
    have hpassing := passing.mem_all
    cases precedence <;> simp [placesOf, hpassing]

/-- The places of a search are those in its steps. -/
theorem mem_placesIn {steps : List Step} {p : Place} : p ∈ placesIn steps ↔ p.In steps := by
  simp only [placesIn, List.mem_flatMap, Prod.exists, mem_placesOf, Place.In]
  constructor
  · rintro ⟨step, position, hmem, rfl, rfl⟩
    exact List.mem_zipIdx_iff_getElem?.mp hmem
  · intro h
    exact ⟨p.step, p.position, List.mem_zipIdx_iff_getElem?.mpr h, rfl, rfl⟩

/-- The places are listed in their order. -/
theorem placesIn_pairwise (steps : List Step) : (placesIn steps).Pairwise Place.Before := by
  have hone : ∀ step position, (placesOf step position).Pairwise Place.Before := by
    intro step position
    simp [placesOf, Passing.all, Place.Before, Passing.rank, Precedence.rank]
  have hall : ∀ k, ((steps.zipIdx k).flatMap fun (step, position) =>
      placesOf step position).Pairwise Place.Before := by
    induction steps with
    | nil => exact fun _ => .nil
    | cons step steps ih =>
        intro k
        rw [List.zipIdx_cons, List.flatMap_cons, List.pairwise_append]
        refine ⟨hone step k, ih (k + 1), fun p hp q hq => .inl ?_⟩
        obtain ⟨⟨step', position⟩, hmem, hq⟩ := List.mem_flatMap.mp hq
        rw [(mem_placesOf.mp hp).2, (mem_placesOf.mp hq).2]
        exact List.le_snd_of_mem_zipIdx hmem
  exact hall 0

section FirstPerKey

variable {α κ : Type} [DecidableEq κ] {key : α → κ} {seen : List κ} {xs : List α}

/-- Leaving repetitions out keeps the order. -/
theorem firstPerKey_sublist : (firstPerKey key seen xs).Sublist xs := by
  induction xs generalizing seen with
  | nil => exact .slnil
  | cons x xs ih =>
      unfold firstPerKey
      split
      · exact ih.cons x
      · exact ih.cons_cons x

/-- What is kept has a key that was not seen before. -/
theorem key_not_mem_of_mem_firstPerKey {x : α} (h : x ∈ firstPerKey key seen xs) :
    key x ∉ seen := by
  induction xs generalizing seen with
  | nil => cases h
  | cons y xs ih =>
      unfold firstPerKey at h
      split at h
      · exact ih h
      next hy =>
        rcases List.mem_cons.mp h with rfl | h
        · exact hy
        · exact fun hmem => ih h (List.mem_cons_of_mem _ hmem)

/-- What is kept has different keys. -/
theorem firstPerKey_pairwise : (firstPerKey key seen xs).Pairwise fun x y => key y ≠ key x := by
  induction xs generalizing seen with
  | nil => exact .nil
  | cons x xs ih =>
      unfold firstPerKey
      split
      · exact ih
      · refine .cons (fun y hy heq => ?_) ih
        exact key_not_mem_of_mem_firstPerKey hy (heq ▸ List.mem_cons_self)

/-- Whatever is left out has a key that was seen before or is kept. -/
theorem exists_firstPerKey {x : α} (h : x ∈ xs) :
    key x ∈ seen ∨ ∃ y ∈ firstPerKey key seen xs, key x = key y := by
  induction xs generalizing seen with
  | nil => cases h
  | cons y xs ih =>
      unfold firstPerKey
      rcases List.mem_cons.mp h with rfl | h
      · split
        · exact .inl ‹_›
        · exact .inr ⟨x, List.mem_cons_self, rfl⟩
      · split
        · exact ih h
        · have hrest : key x ∈ key y :: seen ∨ _ := ih h
          rcases hrest with hseen | ⟨z, hz, hkey⟩
          · rcases List.mem_cons.mp hseen with heq | hseen
            · exact .inr ⟨y, List.mem_cons_self, heq⟩
            · exact .inl hseen
          · exact .inr ⟨z, List.mem_cons_of_mem _ hz, hkey⟩

end FirstPerKey

namespace Precedence

/-- Two candidates count as one: inherent ones of the same origin, extension
ones of the same trait. -/
def CountsAs (p : Precedence) (c c' : Candidate) : Prop :=
  match p with
  | .inherent => c.origin = c'.origin
  | .extension => c.trait? = c'.trait?

/-- The matches differ, and `several` holds one of each sort in their order. -/
structure Differ (p : Precedence) (matching several : List Candidate) : Prop where
  two : 2 ≤ several.length
  sublist : several.Sublist matching
  distinct : several.Pairwise fun c c' => ¬ p.CountsAs c' c
  covers : ∀ c ∈ matching, ∃ c' ∈ several, p.CountsAs c c'

variable {p : Precedence} {matching : List Candidate}

/-- **The representatives** are some of the candidates in their order, no two of which
count as the same, and each candidate counts as one of them. -/
theorem representatives_spec (p : Precedence) (matching : List Candidate) :
    (p.representatives matching).Sublist matching ∧
      (p.representatives matching).Pairwise (fun c c' => ¬ p.CountsAs c' c) ∧
      ∀ c ∈ matching, ∃ c' ∈ p.representatives matching, p.CountsAs c c' := by
  cases p with
  | inherent =>
      refine ⟨firstPerKey_sublist, firstPerKey_pairwise, fun c hc => ?_⟩
      exact (exists_firstPerKey hc).resolve_left (by simp)
  | extension =>
      refine ⟨firstPerKey_sublist, firstPerKey_pairwise, fun c hc => ?_⟩
      exact (exists_firstPerKey hc).resolve_left (by simp)

/-- The first match always represents itself. -/
theorem representatives_cons (p : Precedence) (c : Candidate) (rest : List Candidate) :
    ∃ others, p.representatives (c :: rest) = c :: others := by
  cases p <;> exact ⟨_, rfl⟩

/-- **Settling.**  Matches that all count as one are settled by the first of
them, and matches that differ are ambiguous. -/
theorem settle_spec (p : Precedence) (method : Symbol) (receiver : TypeId) (first : Candidate)
    (rest : List Candidate) :
    ((∀ c ∈ first :: rest, ∀ c' ∈ first :: rest, p.CountsAs c c') →
      p.settle method receiver (first :: rest) = .ok first) ∧
    ((¬ ∀ c ∈ first :: rest, ∀ c' ∈ first :: rest, p.CountsAs c c') →
      ∃ several, p.settle method receiver (first :: rest) =
        .error (.ambiguous method receiver several) ∧ p.Differ (first :: rest) several) := by
  obtain ⟨hsub, hpair, hcover⟩ := p.representatives_spec (first :: rest)
  obtain ⟨others, hrep⟩ := p.representatives_cons first rest
  unfold settle
  rw [hrep] at hsub hpair hcover ⊢
  cases others with
  | nil =>
      refine ⟨fun _ => rfl, fun hdiffer => absurd (fun c hc c' hc' => ?_) hdiffer⟩
      obtain ⟨d, hd, hcd⟩ := hcover c hc
      obtain ⟨d', hd', hcd'⟩ := hcover c' hc'
      obtain rfl : d = first := by simpa using hd
      obtain rfl : d' = d := by simpa using hd'
      cases p with
      | inherent => exact Eq.trans hcd (Eq.symm hcd')
      | extension => exact Eq.trans hcd (Eq.symm hcd')
  | cons second others =>
      constructor
      · intro hall
        have hne := (List.pairwise_cons.mp hpair).1 second List.mem_cons_self
        have hmem : second ∈ first :: rest :=
          hsub.subset (List.mem_cons_of_mem _ List.mem_cons_self)
        exact absurd (hall second hmem first List.mem_cons_self) hne
      · intro _
        exact ⟨_, rfl, by simp, hsub, hpair, hcover⟩

end Precedence

/-- What a tree becomes when it is passed so. -/
def Passing.tree : Passing → Tree → Tree
  | .byValue, t => t
  | .byBorrow b, t => .app (.ref b) [t]

/-- Passing a receiver by a borrow changes none of its atoms. -/
theorem Passing.mem_atoms_tree {p : Passing} {t : Tree} {a : Atom} :
    a ∈ (p.tree t).atoms ↔ a ∈ t.atoms := by
  cases p <;> simp [Passing.tree]

namespace TypeStore.Ordered

variable {s : TypeStore} {t : TypeId}

/-- A borrow is made quietly and reads as the type in a borrow. -/
theorem refTo_reads (h : s.Ordered) (b : Borrow) (ht : s.Has t) :
    Quiet s ((refTo b t).run s).2 ∧
      ((refTo b t).run s).2.Reads (Passing.tree (.byBorrow b) (s.written t)) ((refTo b t).run s).1 := by
  obtain ⟨hq, -, hhas, hnode⟩ := h.refTo_quiet b ht
  refine ⟨hq, hhas, ?_⟩
  rw [hq.finish.wellFormed.written_of_app hnode]
  simp [Passing.tree, hq.written_eq ht]

/-- The type to be tried is made quietly and reads as the receiver in the form in which it
is passed. -/
theorem form_reads (h : s.Ordered) (p : Passing) (ht : s.Has t) :
    Quiet s ((p.form t).run s).2 ∧
      ((p.form t).run s).2.Reads (p.tree (s.written t)) ((p.form t).run s).1 := by
  cases p with
  | byValue => exact ⟨.refl h, ht, rfl⟩
  | byBorrow b => exact h.refTo_reads b ht

end TypeStore.Ordered

namespace Resolver

variable {r : Resolver} {s x : TypeStore} {t form : TypeId} {c : Candidate} {p : Passing}

/-- The types of all declared impls are in the store. -/
def Within (r : Resolver) (s : TypeStore) : Prop :=
  ∀ id decl, r.db.impl? id = some decl →
    s.Has decl.self ∧ ∀ c ∈ decl.conditions, s.Has c.ty

/-- The candidate accepts the type `t` passed as `p`, tried alone on the store
`s`. -/
def acceptsAlone (r : Resolver) (s : TypeStore) (p : Passing) (t : TypeId) (c : Candidate) :
    Bool :=
  ((p.form t >>= fun form => r.accepts form c).run s).1

/-- The types of declared impls read alike in two quiet descendants of one store. -/
theorem Within.pairedIn (h : r.Within s) {y : TypeStore} (hx : Quiet s x) (hy : Quiet s y) :
    r.PairedIn (Twin.start hx hy) := by
  intro id decl hdecl
  obtain ⟨hself, hconditions⟩ := h id decl hdecl
  exact ⟨pairs_self hx hy hself, fun c hc => pairs_self hx hy (hconditions c hc)⟩

/-- **Trials are independent.**  After any quiet work a candidate accepts a form
of a type exactly when it does so tried alone on the store from before. -/
theorem calm_accepts (hr : r.Within s) (hc : s.Has c.expected) (ht : s.Has t) (hx : Quiet s x)
    (hform : x.Reads (p.tree (s.written t)) form) :
    Calm x (r.accepts form c) fun _ b => b = r.acceptsAlone s p t c := by
  intro y hy
  obtain ⟨hq, hreads⟩ := hx.start.form_reads p ht
  have hxy := hx.trans hy
  have hpair : (Twin.start hq hxy).Pairs ((p.form t).run s).1 form := by
    refine pairs_start hq hxy hreads (hy.reads hform) fun id hid => ?_
    exact hx.start.wellFormed.var_lt_of_written (Passing.mem_atoms_tree.mp hid)
  obtain ⟨v, -, -, hquiet, -, hright, hsame⟩ := steady_accepts (hr.pairedIn hq hxy) rfl rfl
    (pairs_self hq hxy hc) hpair _ (.refl _)
  exact ⟨hright ▸ hquiet, hsame.symm⟩

/-- The candidates that match at a place, in the order of their group. -/
def matching (r : Resolver) (s : TypeStore) (g : Gathering) (place : Place) : List Candidate :=
  (g.candidates place.precedence).filter (r.acceptsAlone s place.passing place.step.ty)

end Resolver

/-- Keeping what passes a calm test keeps what passes the test alone. -/
theorem calm_keepM {α : Type} {s : TypeStore} {test : α → StateM TypeStore Bool} {pass : α → Bool}
    {xs : List α} (h : ∀ a ∈ xs, Calm s (test a) fun _ b => b = pass a) :
    Calm s (keepM test xs) fun _ ys => ys = xs.filter pass := by
  induction xs generalizing s with
  | nil => exact .pure fun _ _ => rfl
  | cons a xs ih =>
      refine (h a List.mem_cons_self).bind fun x b hx hb => ?_
      refine (ih fun a' ha' => (h a' (List.mem_cons_of_mem _ ha')).mono hx).bind ?_
      intro y ys _ hys
      refine .pure fun _ _ => ?_
      rw [List.filter_cons, hys, hb]

/-- The place of a cell. -/
def Cell.place (cell : Cell) : Place := ⟨cell.step, cell.position, cell.passing, cell.precedence⟩

/-- The forms of a type are written as what it becomes when it is passed so. -/
theorem calm_receiverForms {s : TypeStore} {t : TypeId} (ht : s.Has t) :
    Calm s (receiverForms t) fun x forms => forms.map (·.1) = Passing.all ∧
      ∀ form ∈ forms, x.Reads (form.1.tree (s.written t)) form.2 := by
  intro x hx
  have htx := hx.has ht
  obtain ⟨hq₁, hshared⟩ := hx.finish.refTo_reads .shared htx
  obtain ⟨hq₂, hmutable⟩ := hq₁.finish.refTo_reads .mutable (hq₁.has htx)
  rw [hq₁.written_eq htx] at hmutable
  rw [hx.written_eq ht] at hshared hmutable
  have hplain : x.Reads (s.written t) t := hx.reads ⟨ht, rfl⟩
  have hforms : ((receiverForms t).run x).1 =
      [(.byValue, t), (.byBorrow .shared, ((refTo .shared t).run x).1),
        (.byBorrow .mutable, ((refTo .mutable t).run ((refTo .shared t).run x).2).1)] := rfl
  refine ⟨hq₁.trans hq₂, rfl, ?_⟩
  rw [hforms]
  simp only [List.forall_mem_cons]
  exact ⟨(hq₁.trans hq₂).reads hplain, hq₂.reads hshared, hmutable, by simp⟩

/-- The cells of a step are its places in order, each with the type to be tried there. -/
theorem calm_cellsOf {s : TypeStore} {step : Step} (ht : s.Has step.ty) (position : Nat) :
    Calm s (cellsOf step position) fun x cells =>
      cells.map Cell.place = placesOf step position ∧
        ∀ cell ∈ cells, x.Reads (cell.passing.tree (s.written step.ty)) cell.form := by
  refine (calm_receiverForms ht).bind fun x forms _ hforms => ?_
  refine .pure fun y hy => ⟨?_, ?_⟩
  · rw [placesOf, ← hforms.1, List.map_flatMap, List.flatMap_map]
    rfl
  · intro cell hcell
    obtain ⟨form, hform, hcell⟩ := List.mem_flatMap.mp hcell
    obtain ⟨precedence, -, rfl⟩ := List.mem_map.mp hcell
    exact hy.reads (hforms.2 form hform)

namespace Resolver

variable {r : Resolver} {s : TypeStore} {g : Gathering} {steps : List Step} {method : Symbol}
  {receiver : TypeId}

/-- What a place decides; nothing when no candidate matches there. -/
def decision (r : Resolver) (s : TypeStore) (method : Symbol) (receiver : TypeId) (g : Gathering)
    (place : Place) : Option (Except Failure Choice) :=
  if (r.matching s g place).isEmpty then none
  else some ((place.precedence.settle method receiver (r.matching s g place)).map fun c =>
    { candidate := c
      derefs := place.step.derefCount place.position
      passing := place.passing
      unsizes := place.step.unsized
      viaTrait := decide (place.precedence = .extension ∧ (r.matching s g place).length > 1) })

/-- **One cell** decides as its place does, read on the store before the search. Quiet
work on the way makes no difference. -/
theorem calm_searchCell (hr : r.Within s) (hg : ∀ p, ∀ c ∈ g.candidates p, s.Has c.expected)
    {x : TypeStore} {cell : Cell} (ht : s.Has cell.step.ty) (hx : Quiet s x)
    (hform : x.Reads (cell.passing.tree (s.written cell.step.ty)) cell.form) :
    Calm x (r.searchCell method receiver g cell) fun _ o =>
      o = r.decision s method receiver g cell.place := by
  have hkeep : Calm x (keepM (r.accepts cell.form) (g.candidates cell.precedence))
      fun _ ys => ys = r.matching s g cell.place :=
    calm_keepM fun c hc => calm_accepts hr (hg _ c hc) ht hx hform
  refine hkeep.bind fun y matching _ hmatching => ?_
  subst hmatching
  unfold decision
  split
  · exact .pure fun _ _ => rfl
  · exact .pure fun _ _ => rfl

/-- The first answer in lists of lists is sought list by list. -/
theorem findSome?_flatMap {α β γ : Type} {xs : List α} {f : α → List β} {g : β → Option γ} :
    (xs.flatMap f).findSome? g = xs.findSome? fun a => (f a).findSome? g := by
  induction xs with
  | nil => rfl
  | cons a xs ih =>
      rw [List.flatMap_cons, List.findSome?_append, List.findSome?_cons, ih]
      cases (f a).findSome? g <;> rfl

/-- **The search asks place after place.** -/
theorem calm_search (hr : r.Within s) (hsteps : ∀ step ∈ steps, s.Has step.ty)
    (hg : ∀ p, ∀ c ∈ g.candidates p, s.Has c.expected) (method : Symbol) (receiver : TypeId) :
    Calm s (r.search method receiver steps g) fun _ o =>
      o = ((placesIn steps).findSome? (r.decision s method receiver g)).getD
        (.error (.noMethod method receiver (steps.map (·.ty)) g.functions [])) := by
  have hstep : ∀ a ∈ steps.zipIdx, Calm s (r.searchStep method receiver g a.1 a.2) fun _ o =>
      o = (placesOf a.1 a.2).findSome? (r.decision s method receiver g) := by
    intro a ha
    have hty : s.Has a.1.ty := hsteps a.1 (List.fst_mem_of_mem_zipIdx ha)
    refine (calm_cellsOf hty a.2).bind fun x cells hx hcells => ?_
    rw [← hcells.1, List.findSome?_map]
    refine Calm.findSomeM? fun cell hcell => ?_
    have hplace : cell.place ∈ placesOf a.1 a.2 := hcells.1 ▸ List.mem_map_of_mem hcell
    have hcellStep : cell.step = a.1 := (mem_placesOf.mp hplace).1
    refine calm_searchCell hr hg (hcellStep ▸ hty) hx ?_
    rw [hcellStep]
    exact hcells.2 cell hcell
  refine (Calm.findSomeM? hstep).bind fun x o _ ho => ?_
  have hflat : steps.zipIdx.findSome? (fun a =>
      (placesOf a.1 a.2).findSome? (r.decision s method receiver g)) =
      (placesIn steps).findSome? (r.decision s method receiver g) := by
    rw [placesIn, findSome?_flatMap]
  rw [hflat] at ho
  subst ho
  cases (placesIn steps).findSome? (r.decision s method receiver g) with
  | some outcome => exact .pure fun _ _ => rfl
  | none => exact .pure fun _ _ => rfl

/-- The first place at which anything matches. -/
structure Deciding (r : Resolver) (s : TypeStore) (g : Gathering) (steps : List Step)
    (place : Place) : Prop where
  inSteps : place.In steps
  matches_ne : r.matching s g place ≠ []
  first : ∀ p : Place, p.In steps → p.Before place → r.matching s g p = []

/-- Where nothing matches, a place decides nothing. -/
theorem decision_eq_none {place : Place} (h : r.matching s g place = []) :
    r.decision s method receiver g place = none := by
  simp [decision, h]

/-- The first place where something matches decides the search. -/
theorem findSome?_decision (method : Symbol) (receiver : TypeId) {place : Place}
    (h : r.Deciding s g steps place) :
    (placesIn steps).findSome? (r.decision s method receiver g) =
      r.decision s method receiver g place := by
  obtain ⟨before, after, hsplit⟩ := List.append_of_mem (mem_placesIn.mpr h.inSteps)
  have hpair := placesIn_pairwise steps
  rw [hsplit, List.pairwise_append] at hpair
  have hbefore : before.findSome? (r.decision s method receiver g) = none := by
    rw [List.findSome?_eq_none_iff]
    intro p hp
    have hin : p.In steps := mem_placesIn.mp (by rw [hsplit]; exact List.mem_append_left _ hp)
    exact decision_eq_none (h.first p hin (hpair.2.2 p hp place List.mem_cons_self))
  rw [hsplit, List.findSome?_append, hbefore, Option.none_or, List.findSome?_cons]
  simp only [decision, List.isEmpty_iff, h.matches_ne, if_false]

/-- Where anything matches there is a first place. -/
theorem exists_deciding {place : Place} (hin : place.In steps) (hne : r.matching s g place ≠ []) :
    ∃ first, r.Deciding s g steps first := by
  have hsome : ((placesIn steps).find? fun p => decide (r.matching s g p ≠ [])).isSome :=
    List.find?_isSome.mpr ⟨place, mem_placesIn.mpr hin, by simpa using hne⟩
  obtain ⟨first, hfirst⟩ := Option.isSome_iff_exists.mp hsome
  obtain ⟨hmatch, before, after, hsplit, hbefore⟩ := List.find?_eq_some_iff_append.mp hfirst
  refine ⟨first, mem_placesIn.mp (by simp [hsplit]), by simpa using hmatch, fun p hp hlt => ?_⟩
  have hpair := placesIn_pairwise steps
  have hmem : p ∈ before ++ first :: after := hsplit ▸ mem_placesIn.mpr hp
  rw [hsplit, List.pairwise_append, List.pairwise_cons] at hpair
  have hasymm : ∀ {p q : Place}, p.Before q → ¬ q.Before p ∧ p ≠ q := by
    intro p q hpq
    refine ⟨?_, ?_⟩
    · unfold Place.Before at *
      omega
    · rintro rfl
      unfold Place.Before at hpq
      omega
  rcases List.mem_append.mp hmem with hmem | hmem
  · simpa using hbefore p hmem
  · rcases List.mem_cons.mp hmem with rfl | hmem
    · exact absurd rfl (hasymm hlt).2
    · exact absurd (hpair.2.1.1 p hmem) (hasymm hlt).1

/-- A search finds nothing, or it is settled at one place: by the first candidate that
matches there, or by candidates that differ. -/
theorem search_cases (hs : s.Ordered) (hr : r.Within s) (hsteps : ∀ step ∈ steps, s.Has step.ty)
    (hg : ∀ p, ∀ c ∈ g.candidates p, s.Has c.expected) (method : Symbol) (receiver : TypeId) :
    let o := ((r.search method receiver steps g).run s).1
    o = .error (.noMethod method receiver (steps.map (·.ty)) g.functions []) ∨
      ∃ place : Place, place.In steps ∧
        ((∃ first ∈ r.matching s g place, ∃ viaTrait,
          o = .ok ⟨first, place.step.derefCount place.position, place.passing,
            place.step.unsized, viaTrait⟩) ∨
        ∃ several, o = .error (.ambiguous method receiver several) ∧
          place.precedence.Differ (r.matching s g place) several) := by
  intro o
  obtain ⟨-, houtcome⟩ := calm_search hr hsteps hg method receiver s (.refl hs)
  have ho : o = _ := houtcome
  clear_value o
  cases hfind : (placesIn steps).findSome? (r.decision s method receiver g) with
  | none =>
      rw [hfind] at ho
      exact .inl ho
  | some outcome =>
      rw [hfind, Option.getD_some] at ho
      subst ho
      obtain ⟨place, hmem, hdecision⟩ := List.exists_of_findSome?_eq_some hfind
      refine .inr ⟨place, mem_placesIn.mp hmem, ?_⟩
      unfold decision at hdecision
      cases hmatching : r.matching s g place with
      | nil => simp [hmatching] at hdecision
      | cons first rest =>
          rw [hmatching] at hdecision
          obtain ⟨hsame, hdiffer⟩ := place.precedence.settle_spec method receiver first rest
          by_cases hall : ∀ c ∈ first :: rest, ∀ c' ∈ first :: rest, place.precedence.CountsAs c c'
          · rw [hsame hall] at hdecision
            cases Option.some.inj hdecision
            exact .inl ⟨first, List.mem_cons_self, _, rfl⟩
          · obtain ⟨several, hsettle, hspec⟩ := hdiffer hall
            rw [hsettle] at hdecision
            cases Option.some.inj hdecision
            exact .inr ⟨several, rfl, hspec⟩

/-- **The order of the search.**  If nothing matches anywhere, no method is found
and the types of the steps are reported in order.  Otherwise the first place at
which anything matches decides: when all its matches count as one, their first
candidate is chosen, with the adjustments of the place, and through its trait
when several impls of it match; when they differ, the call is ambiguous. -/
theorem search_ordered (hs : s.Ordered) (hr : r.Within s)
    (hsteps : ∀ step ∈ steps, s.Has step.ty)
    (hg : ∀ p, ∀ c ∈ g.candidates p, s.Has c.expected) (method : Symbol) (receiver : TypeId) :
    let outcome := ((r.search method receiver steps g).run s).1
    ((∀ place : Place, place.In steps → r.matching s g place = []) →
      outcome = .error (.noMethod method receiver (steps.map (·.ty)) g.functions [])) ∧
    ((∃ place : Place, place.In steps ∧ r.matching s g place ≠ []) →
      ∃ place, r.Deciding s g steps place) ∧
    ∀ place, r.Deciding s g steps place →
      ((∀ c ∈ r.matching s g place, ∀ c' ∈ r.matching s g place,
          place.precedence.CountsAs c c') →
        ∃ first, (r.matching s g place).head? = some first ∧
          outcome = .ok
            { candidate := first
              derefs := place.step.derefCount place.position
              passing := place.passing
              unsizes := place.step.unsized
              viaTrait := decide
                (place.precedence = .extension ∧ 2 ≤ (r.matching s g place).length) }) ∧
      ((¬ ∀ c ∈ r.matching s g place, ∀ c' ∈ r.matching s g place,
          place.precedence.CountsAs c c') →
        ∃ several, outcome = .error (.ambiguous method receiver several) ∧
          place.precedence.Differ (r.matching s g place) several) := by
  obtain ⟨-, houtcome⟩ := calm_search hr hsteps hg method receiver s (.refl hs)
  refine ⟨fun hnone => ?_, fun ⟨place, hin, hne⟩ => exists_deciding hin hne, fun place hplace => ?_⟩
  · rw [houtcome, List.findSome?_eq_none_iff.mpr]
    · rfl
    · exact fun p hp => decision_eq_none (hnone p (mem_placesIn.mp hp))
  · rw [houtcome, findSome?_decision method receiver hplace]
    have hne := hplace.matches_ne
    unfold decision
    generalize r.matching s g place = matching at hne ⊢
    cases matching with
    | nil => exact absurd rfl hne
    | cons first rest =>
        obtain ⟨hsame, hdiffer⟩ := place.precedence.settle_spec method receiver first rest
        refine ⟨fun hall => ⟨first, rfl, ?_⟩, fun hnot => ?_⟩
        · rw [hsame hall]
          rfl
        · obtain ⟨several, hsettle, hspec⟩ := hdiffer hnot
          refine ⟨several, ?_, hspec⟩
          rw [hsettle]
          rfl

/-- Two impls of one trait for `i32` match a receiver of that type by value; the
first of them is chosen, through the trait. -/
theorem search_ordered_primitive :
    let decl : ImplDecl := ⟨some ⟨0⟩, [], .ofPrimitive .i32, [], []⟩
    let r := { Declarations.empty with impls := #[decl, decl] }.resolver {} .empty
    let step : Step := ⟨.ofPrimitive .i32, false⟩
    let c (id : Nat) : Candidate :=
      ⟨.impl ⟨id⟩, .extension ⟨0⟩, .blank, .byValue, .ofPrimitive .i32, 0, .ofPrimitive .i32⟩
    ((r.search .blank (.ofPrimitive .i32) [step] ⟨[], [c 0, c 1], []⟩).run new).1 =
      .ok ⟨c 0, 0, .byValue, false, true⟩ := by
  intro decl r step c
  let g : Gathering := ⟨[], [c 0, c 1], []⟩
  let place : Place := ⟨step, 0, .byValue, .extension⟩
  have hmatching : r.matching new g place = [c 0, c 1] := by decide +kernel
  have hr : r.Within new := by
    intro id d hd
    have hmem : d ∈ #[decl, decl] := Array.mem_of_getElem? hd
    obtain rfl : d = decl := by simpa using hmem
    exact ⟨by decide, by simp [decl]⟩
  have hsteps : ∀ step' ∈ [step], new.Has step'.ty := by decide
  have hg : ∀ p, ∀ c' ∈ g.candidates p, new.Has c'.expected := by
    intro p
    cases p <;> decide
  have hplace : r.Deciding new g [step] place := by
    refine ⟨rfl, by simp [hmatching], fun p hp hbefore => ?_⟩
    obtain ⟨_, position, passing, precedence⟩ := p
    have hprecedence : precedence = .inherent := by
      simp only [Place.Before, place] at hbefore
      cases precedence with
      | inherent => rfl
      | extension => simp [Precedence.rank, Passing.rank] at hbefore
    subst hprecedence
    rfl
  have hone : ∀ c₁ ∈ r.matching new g place, ∀ c₂ ∈ r.matching new g place,
      place.precedence.CountsAs c₁ c₂ := by
    simp [hmatching, Precedence.CountsAs, place, c, Candidate.trait?]
  obtain ⟨-, -, hdecides⟩ :=
    search_ordered new_sound.ordered hr hsteps hg .blank (.ofPrimitive .i32)
  obtain ⟨first, hfirst, houtcome⟩ := (hdecides place hplace).1 hone
  rw [hmatching] at hfirst houtcome
  obtain rfl : c 0 = first := by simpa using hfirst
  exact houtcome

end Resolver

end DotCall
