import DotCall.Call.Outcome
import DotCall.Proofs.PointerLayers

/-!
# Methods behind pointers

A program has pointer types that dereference to their arguments, and one inherent impl for
a nominal type without arguments, with a method that borrows its receiver.  Whatever
pointers and borrows a receiver is wrapped in, the method is found behind them
(`resolve_behind_pointers`).

The steps of the receiver are all that is inside, and the method expects the nominal type
in a shared borrow, so a step matches exactly in two cases: borrowed, where nothing is
left of the layers, and by value, where just a shared borrow is left.  The second comes
one step earlier.  If the innermost layer is a shared borrow it decides, and otherwise
there is no such step.
-/

namespace DotCall

open TypeStore DotCall.Tree

/-- The program has rules for the given pointers and no other rules, and one inherent
impl: without conditions, for the nominal type `core`, with a method that borrows its
receiver. -/
structure Declarations.Reveals (d : Declarations) (s : TypeStore) (pointers : List Symbol)
    (core method : Symbol) (decl : ImplDecl) : Prop where
  declared : Declared s d
  derefs : d.DerefsPointers s pointers
  unsizings : d.unsizings = []
  impls : d.impls = #[decl]
  inherent : decl.trait? = none
  unconditional : decl.conditions = []
  self : s.Reads (.app (.nominal core) []) decl.self
  provides : decl.methods.get? method = some ⟨method, some (.byBorrow .shared)⟩

/-- A compound type has no methods by itself. -/
theorem Resolver.gatherOffers_compound {r : Resolver} {x : TypeStore} {method : Symbol}
    {steps : List Step} (hx : x.Ordered)
    (hsteps : ∀ step ∈ steps, x.Has step.ty ∧ ∃ f parts, x.meaning step.ty = .app f parts) :
    ((r.gatherOffers method steps).run x).1 = [] := by
  obtain ⟨-, hbecomes⟩ := Resolver.gatherOffers_becomes r method hx fun step h => (hsteps step h).1
  have hoffers : r.offersOf method x (steps.map fun step => x.root step.ty) = [] := by
    have hnone : (steps.map fun step => x.root step.ty).flatMap (r.offers method x) = [] := by
      rw [List.flatMap_eq_nil_iff]
      intro t ht
      obtain ⟨step, hmem, rfl⟩ := List.mem_map.mp ht
      obtain ⟨-, f, parts, hmeaning⟩ := hsteps step hmem
      cases hn : x.node (x.root step.ty) with
      | atom a => simp [meaning_of_atom hn] at hmeaning
      | app g args => simp [Resolver.offers, Resolver.ownTraits, hn]
    rw [Resolver.offersOf, hnone]
    rfl
  rw [hoffers] at hbecomes
  exact List.forall₂_nil_left_iff.mp hbecomes

namespace Declarations.Reveals

variable {d : Declarations} {settings : Settings} {bounds : Bounds} {s x : TypeStore}
  {pointers : List Symbol} {core method : Symbol} {decl : ImplDecl} {layers : List Layer}
  {chain : List TypeId}

theorem impl?_iff (h : d.Reveals s pointers core method decl) {id : ImplId} {decl' : ImplDecl} :
    d.impl? id = some decl' ↔ id = ⟨0⟩ ∧ decl' = decl := by
  obtain ⟨i⟩ := id
  rw [impl?, h.impls]
  cases i with
  | zero => simp [eq_comm]
  | succ i => simp

/-- Declarations that reveal one impl refer to types of the store. -/
theorem closed (h : d.Reveals s pointers core method decl) : d.Closed s where
  self hdecl := by
    obtain ⟨-, rfl⟩ := h.impl?_iff.mp hdecl
    refine ⟨h.self.1, fun id hid => ?_⟩
    simp [h.self.2] at hid
  condition hdecl := by
    obtain ⟨-, rfl⟩ := h.impl?_iff.mp hdecl
    simp [h.unconditional]
  deref rule hrule := by
    obtain ⟨_, -, hpoints⟩ := h.derefs.only rule hrule
    exact hpoints.closed
  unsizing rule hrule := by simp [h.unsizings] at hrule

/-- The one impl provides the method, whichever traits are visible. -/
theorem provides?_eq (h : d.Reveals s pointers core method decl) (visible : List TraitId) :
    (d.resolver settings bounds).provides? method visible ⟨0⟩ =
      some ⟨decl, .inherent, some (.byBorrow .shared)⟩ := by
  have himpl : d.impl? ⟨0⟩ = some decl := h.impl?_iff.mpr ⟨rfl, rfl⟩
  have hdb : (d.resolver settings bounds).db = d.database := rfl
  simp [Resolver.provides?, hdb, database, himpl, methodOfImpl?, ImplDecl.standing?, h.inherent,
    h.provides]

/-- The one impl is relevant: the last step has the head of its self type. -/
theorem relevantImpls_eq (h : d.Reveals s pointers core method decl) (hs : s.Sound)
    (hx : Quiet s x) (hchain : Peels x core layers chain) :
    (d.resolver settings bounds).relevantImpls x (chain.map (⟨·, false⟩)) = [⟨0⟩] := by
  classical
  have hindexed : d.Indexed s := h.declared.indexed hs.wellFormed fun hdecl => (h.closed.self hdecl).2
  have hall : d.allImpls = [⟨0⟩] := by simp [allImpls, h.impls]
  rw [hindexed.relevantImpls_eq, hall, List.filter_eq_self]
  intro id hid
  obtain rfl := List.mem_singleton.mp hid
  obtain ⟨last, hmem, -, hlast⟩ := hchain.getLast?
  refine decide_eq_true ⟨decl, h.impl?_iff.mpr ⟨rfl, rfl⟩, .inr (.inr ⟨⟨last, false⟩, ?_, .inr ?_⟩)⟩
  · exact List.mem_map_of_mem hmem
  · rw [hx.finish.head?_eq, hlast, h.self.2]
    rfl

/-- **The method is gathered** behind the layers, and nothing else. -/
theorem gather_wrapped (settings : Settings) (bounds : Bounds)
    (h : d.Reveals s pointers core method decl) (hs : s.Sound)
    (hx : Quiet s x) (hchain : Peels x core layers chain) (visible : List TraitId) :
    let g := ((d.resolver settings bounds).gather method (chain.map (⟨·, false⟩)) visible).run x
    Quiet x g.2 ∧ ∃ e, g.2.Reads (wrapped core [.borrow .shared]) e ∧
      g.1 = ⟨[⟨.impl ⟨0⟩, .inherent, method, .byBorrow .shared, decl.self, decl.arity, e⟩],
        [], []⟩ := by
  intro g
  have hsteps : ∀ step ∈ chain.map (⟨·, false⟩ : TypeId → Step), x.Expanded step.ty :=
    List.forall_mem_map.mpr hchain.expanded
  have hself : x.written decl.self = wrapped core [] := by
    rw [hx.written_eq h.self.1, h.self.2]
    rfl
  obtain ⟨hqo, hqg, -, found, hfound, hg⟩ := Resolver.gather_run (hs.quiet hx)
    (h.closed.selfFixed hx) hsteps method visible
  have hown : (((d.resolver settings bounds).gatherOffers method
      (chain.map (⟨·, false⟩))).run x).1 = [] := by
    refine Resolver.gatherOffers_compound hx.finish (List.forall_mem_map.mpr fun t ht => ?_)
    obtain ⟨i, hi⟩ := List.mem_iff_getElem?.mp ht
    refine ⟨(hchain.expanded t ht).1, ?_⟩
    rw [hchain.meaning_eq hi]
    cases layers.drop i with
    | nil => exact ⟨_, _, rfl⟩
    | cons l rest => exact ⟨_, _, rfl⟩
  rw [h.relevantImpls_eq hs (hx.trans hqo) (hchain.quiet hqo)] at hfound
  rw [hown] at hg
  cases hfound with
  | cons ho hrest =>
      cases hrest
      unfold Resolver.Contributes at ho
      rw [h.provides?_eq] at ho
      obtain ⟨definition, ⟨e, he, rfl⟩, ⟨-, rfl⟩ | ⟨hnot, -⟩⟩ := ho
      · rw [hself] at he
        exact ⟨hqo.trans hqg, e, he, hg⟩
      · exfalso
        obtain ⟨last, hmem, -, hlast⟩ := hchain.getLast?
        refine hnot ⟨⟨last, false⟩, List.mem_map_of_mem hmem, .byBorrow .shared, ?_⟩
        rw [hself, hlast, tree_wrapped]
        exact matches_wrapped_iff.mpr rfl

end Declarations.Reveals

namespace Resolver

variable {r : Resolver} {y : TypeStore} {core : Symbol} {layers : List Layer}
  {chain : List TypeId} {c : Candidate} {id : ImplId} {decl : ImplDecl} {place : Place}

/-- A receiver in the given layers is passed as a shared borrow of the nominal type. -/
def Borrows (layers : List Layer) (p : Passing) : Prop :=
  p = .byValue ∧ layers = [.borrow .shared] ∨ p = .byBorrow .shared ∧ layers = []

/-- Only at the innermost layer, or at the core, can the receiver be borrowed as the
method asks. -/
theorem Borrows.length_drop_le {j : Nat} {p : Passing} (h : Borrows (layers.drop j) p) :
    layers.length - j ≤ 1 := by
  rw [← List.length_drop]
  obtain ⟨-, hdrop⟩ | ⟨-, hdrop⟩ := h
  · simp [hdrop]
  · simp [hdrop]

section Accepting

variable (hs : y.Sound) (hc : y.Reads (wrapped core [.borrow .shared]) c.expected)
  (horigin : c.origin = .impl id) (hdecl : r.db.impl? id = some decl)
  (hconditions : decl.conditions = [])

include hs hc horigin hdecl hconditions

/-- **A step accepts the candidate** exactly when it is the core or its borrow. -/
theorem acceptsAlone_wrapped {t : TypeId} (ht : y.Expanded t)
    (hmeaning : y.meaning t = wrapped core layers) (p : Passing) :
    r.acceptsAlone y p t c = true ↔ Borrows layers p := by
  have hstands : c.Stands y := ⟨hc.1, fun id hid => by simp [hc.2, atoms_wrapped] at hid⟩
  obtain ⟨honly, hall⟩ := acceptsAlone_iff (r := r) hs hstands ht p
  have hall := hall horigin hdecl hconditions
  rw [hc.2, hmeaning, tree_wrapped, matches_wrapped_iff] at honly hall
  rw [Iff.intro honly hall]
  cases p with
  | byValue => simp [Borrows]
  | byBorrow b => simp [Borrows]

/-- The candidate matches among the inherent ones, at the places where the receiver comes as
it is expected. -/
theorem matching_wrapped (hchain : Peels y core layers chain)
    (hin : place.In (chain.map (⟨·, false⟩))) :
    (r.matching y ⟨[c], [], []⟩ place = [c] ↔
      place.precedence = .inherent ∧ Borrows (layers.drop place.position) place.passing) ∧
    (r.matching y ⟨[c], [], []⟩ place = [] ↔
      ¬ (place.precedence = .inherent ∧ Borrows (layers.drop place.position) place.passing)) := by
  rw [Place.In, List.getElem?_map, Option.map_eq_some_iff] at hin
  obtain ⟨t, ht, hstep⟩ := hin
  have haccepts := acceptsAlone_wrapped hs hc horigin hdecl hconditions
    (hchain.expanded t (List.mem_of_getElem? ht)) (hchain.meaning_eq ht) place.passing
  rw [matching, ← hstep]
  cases place.precedence with
  | inherent =>
      rw [← haccepts]
      cases h : r.acceptsAlone y place.passing t c <;> simp [Gathering.candidates, h]
  | extension => simp [Gathering.candidates]

/-- The search ends at the first place at which the receiver comes as it is expected. -/
theorem search_of_first (hr : r.Within y) (hchain : Peels y core layers chain) {i : Nat}
    {p : Passing} (hi : i ≤ layers.length) (hborrows : Borrows (layers.drop i) p)
    (hfirst : ∀ j q, j ≤ layers.length → Borrows (layers.drop j) q →
      ¬ (j < i ∨ j = i ∧ q.rank < p.rank)) (method : Symbol) (receiver : TypeId) :
    ∃ s', (r.search method receiver (chain.map (⟨·, false⟩)) ⟨[c], [], []⟩).run y =
      (.ok ⟨c, i, p, false, false⟩, s') ∧ Quiet y s' := by
  have hlength := hchain.length
  obtain ⟨t, ht⟩ : ∃ t, chain[i]? = some t := ⟨_, List.getElem?_eq_getElem (by omega)⟩
  let place : Place := ⟨⟨t, false⟩, i, p, .inherent⟩
  have hin : place.In (chain.map (⟨·, false⟩)) := by simp [Place.In, place, ht]
  have hmatching : r.matching y ⟨[c], [], []⟩ place = [c] :=
    (matching_wrapped hs hc horigin hdecl hconditions hchain hin).1.mpr ⟨rfl, hborrows⟩
  have hdeciding : r.Deciding y ⟨[c], [], []⟩ (chain.map (⟨·, false⟩)) place := by
    refine ⟨hin, by simp [hmatching], fun q hq hbefore => ?_⟩
    refine (matching_wrapped hs hc horigin hdecl hconditions hchain hq).2.mpr fun hmatch => ?_
    obtain ⟨hinherent, hborrows'⟩ := hmatch
    have hposition : q.position < (chain.map (⟨·, false⟩ : TypeId → Step)).length :=
      (List.getElem?_eq_some_iff.mp hq).1
    rw [List.length_map, hlength] at hposition
    refine hfirst q.position q.passing (by omega) hborrows' ?_
    simp only [Place.Before, place, hinherent] at hbefore
    omega
  have hsteps : ∀ step ∈ chain.map (⟨·, false⟩ : TypeId → Step), y.Has step.ty :=
    List.forall_mem_map.mpr fun t ht => (hchain.expanded t ht).1
  have hg : ∀ p, ∀ c' ∈ (⟨[c], [], []⟩ : Gathering).candidates p, y.Has c'.expected := by
    intro p
    cases p <;> simp [Gathering.candidates, hc.1]
  obtain ⟨hq, houtcome⟩ := calm_search hr hsteps hg method receiver y (.refl hs.ordered)
  refine ⟨_, Prod.ext ?_ rfl, hq⟩
  rw [houtcome, findSome?_decision method receiver hdeciding]
  unfold decision
  rw [hmatching]
  rfl

/-- **The search finds the method**: by value one step before the last, if the innermost
layer is a shared borrow, and otherwise borrowed at the last step. -/
theorem search_wrapped (hr : r.Within y) (hchain : Peels y core layers chain) (method : Symbol)
    (receiver : TypeId) :
    let inner := layers.getLast? = some (.borrow .shared)
    ∃ s', (r.search method receiver (chain.map (⟨·, false⟩)) ⟨[c], [], []⟩).run y =
      (.ok ⟨c, if inner then layers.length - 1 else layers.length,
        if inner then .byValue else .byBorrow .shared, false, false⟩, s') ∧ Quiet y s' := by
  intro inner
  by_cases hinner : inner
  · obtain ⟨outer, hlayers⟩ := List.getLast?_eq_some_iff.mp hinner
    have hlength : layers.length = outer.length + 1 := by simp [hlayers]
    simp only [hinner, if_true]
    apply search_of_first hs hc horigin hdecl hconditions hr hchain (by omega)
    · exact .inl ⟨rfl, by simp [hlayers]⟩
    · intro j q _ hborrows hbefore
      have hleft : layers.length - j ≤ 1 := hborrows.length_drop_le
      simp only [Passing.rank] at hbefore
      omega
  · simp only [hinner, if_false]
    apply search_of_first hs hc horigin hdecl hconditions hr hchain (Nat.le_refl _)
    · exact .inr ⟨rfl, List.drop_length⟩
    · intro j q hj hborrows hbefore
      obtain ⟨-, hdrop⟩ | ⟨rfl, hdrop⟩ := hborrows
      · refine hinner (List.getLast?_eq_some_iff.mpr ⟨layers.take j, ?_⟩)
        rw [← hdrop, List.take_append_drop]
      · have hend : layers.length ≤ j := List.drop_eq_nil_iff.mp hdrop
        omega

end Accepting

end Resolver

namespace Declarations.Reveals

variable {d : Declarations} {s : TypeStore} {pointers : List Symbol} {core method : Symbol}
  {decl : ImplDecl} {layers : List Layer} {receiver : TypeId}

/-- **Methods are found behind pointers.**  A call on the nominal type in any layers of
borrows and of the program's pointers, not more than the limit, is resolved to the method of
the one impl.  If the innermost layer is a shared borrow, all other layers are taken off and
what is left is passed as it is; otherwise all layers are taken off and the nominal type is
borrowed. -/
theorem resolve_behind_pointers (h : d.Reveals s pointers core method decl)
    {checkpoints : List Checkpoint} (hs : Reached checkpoints s) (ht : s.Has receiver)
    (hmeaning : s.meaning receiver = wrapped core layers)
    (hlayers : ∀ name, .pointer name ∈ layers → name ∈ pointers) (settings : Settings)
    (hbound : layers.length ≤ settings.maxDerefs) (bounds : Bounds) (visible : List TraitId) :
    let inner := layers.getLast? = some (.borrow .shared)
    ∃ e s', ((d.resolver settings bounds).resolve receiver method visible).run s =
        (.ok
          { candidate := ⟨.impl ⟨0⟩, .inherent, method, .byBorrow .shared, decl.self, decl.arity, e⟩
            derefs := if inner then layers.length - 1 else layers.length
            passing := if inner then .byValue else .byBorrow .shared
            unsizes := false
            viaTrait := false }, s') ∧
      Quiet s s' ∧ s'.Reads (.app (.ref .shared) [.app (.nominal core) []]) e := by
  intro inner
  obtain ⟨hroot, hq₁⟩ := hs.sound.ordered.findRoot_quiet receiver
  obtain ⟨x₁, hx₁⟩ : ∃ x₁, (findRoot receiver).run s = x₁ := ⟨_, rfl⟩
  rw [hx₁] at hroot hq₁
  have hhas : s.Has (s.root receiver) := hs.sound.ordered.has_root ht
  have hrootMeaning : s.meaning (s.root receiver) = wrapped core layers := by
    rw [hs.sound.ordered.meaning_root, hmeaning]
  have herror : s.root receiver ≠ .error := by
    intro heq
    have herror : s.meaning .error = .atom (.prim .error) := hs.meaning_primitive .error
    rw [heq, herror] at hrootMeaning
    cases layers <;> simp [wrapped] at hrootMeaning
  obtain ⟨chain, x₂, hsteps, hq₂, hchain⟩ := Resolver.stepsOf_wrapped settings bounds hs.sound h.closed
    h.derefs h.unsizings hlayers hbound hq₁ (hq₁.has hhas) (hq₁.meaning_eq hhas ▸ hrootMeaning)
  obtain ⟨hq₃, e, he, hgathered⟩ := h.gather_wrapped settings bounds hs.sound (hq₁.trans hq₂)
    hchain visible
  obtain ⟨r, hr⟩ : ∃ r, d.resolver settings bounds = r := ⟨_, rfl⟩
  rw [hr] at hsteps hq₃ he hgathered
  obtain ⟨g, hg⟩ : ∃ g, (r.gather method (chain.map (⟨·, false⟩)) visible).run x₂ = g := ⟨_, rfl⟩
  rw [hg] at hq₃ he hgathered
  have hqg : Quiet s g.2 := hq₁.trans (hq₂.trans hq₃)
  have hdecl : r.db.impl? ⟨0⟩ = some decl := by
    rw [← hr]
    exact h.impl?_iff.mpr ⟨rfl, rfl⟩
  obtain ⟨c, hc⟩ : ∃ c : Candidate, ⟨.impl ⟨0⟩, .inherent, method, .byBorrow .shared, decl.self,
    decl.arity, e⟩ = c := ⟨_, rfl⟩
  have hexpected : g.2.Reads (wrapped core [.borrow .shared]) c.expected := hc ▸ he
  have horigin : c.origin = .impl ⟨0⟩ := hc ▸ rfl
  rw [hc] at hgathered
  obtain ⟨s', hsearch, hq₄⟩ := Resolver.search_wrapped (hs.sound.quiet hqg) hexpected horigin hdecl
    h.unconditional (hr ▸ h.closed.within hqg) (hchain.quiet hq₃) method (s.root receiver)
  refine ⟨e, s', ?_, hqg.trans hq₄, hq₄.reads he⟩
  rw [hr, hc]
  simp only [Resolver.resolve, run_bind, hx₁, hroot, herror, if_false, hsteps, hg, hgathered, hsearch]
  rfl

/-- A store with a nominal type, the sides of a rule for a pointer type, and the nominal
type in a shared borrow behind that pointer. -/
def boxed : TypeStore :=
  [.nominal .blank [], .param 0, .nominal ⟨1⟩ [⟨65⟩], .ref .shared ⟨64⟩,
    .nominal ⟨1⟩ [⟨67⟩]].foldl (fun s (a : Action) => (a.perform.run s).2) new

theorem boxed_reached : Reached [] boxed :=
  Reached.new.acts (by cbv)

theorem boxed_values :
    (boxed.size, boxed.written ⟨64⟩, boxed.written ⟨65⟩, boxed.written ⟨66⟩, boxed.meaning ⟨68⟩) =
      (69, .app (.nominal .blank) [], .atom (.param 0), .app (.nominal ⟨1⟩) [.atom (.param 0)],
        wrapped .blank [.pointer ⟨1⟩, .borrow .shared]) := by
  cbv

theorem boxed_has {t : TypeId} (ht : t.index < 69) : boxed.Has t := by
  rwa [TypeStore.Has, (Prod.mk.inj boxed_values).1]

/-- The impl for the nominal type of `boxed`, with one method. -/
def inBoxes : ImplDecl := ⟨none, [], ⟨64⟩, [⟨.blank, some (.byBorrow .shared)⟩], []⟩

/-- The program with that impl and the rule for the pointer. -/
def boxes : Declarations := ((empty.addDeref ⟨1, ⟨66⟩, ⟨65⟩⟩).addImpl boxed inBoxes).2

theorem boxes_reveal : boxes.Reveals boxed [⟨1⟩] .blank .blank inBoxes := by
  have hvalues := boxed_values
  simp only [Prod.mk.injEq] at hvalues
  obtain ⟨-, hcore, hparam, hpointer, -⟩ := hvalues
  have hself : boxed.Reads (.app (.nominal .blank) []) ⟨64⟩ := ⟨boxed_has (by decide), hcore⟩
  have hpoints : Rule.PointsTo ⟨1, ⟨66⟩, ⟨65⟩⟩ boxed ⟨1⟩ :=
    ⟨rfl, ⟨boxed_has (by decide), hpointer⟩, boxed_has (by decide), hparam⟩
  exact
    { declared := .impl (.deref .empty _) boxed_reached (.refl _) hself.1
      derefs := ⟨by simpa [boxes, addImpl, addDeref, empty] using hpoints,
        by simpa [boxes, addImpl, addDeref, empty] using hpoints⟩
      unsizings := rfl
      impls := rfl
      inherent := rfl
      unconditional := rfl
      self := hself
      provides := by decide }

/-- The method is found one dereference away, where the receiver is borrowed already. -/
theorem resolve_behind_box :
    ∃ e s', ((boxes.resolver {} .empty).resolve ⟨68⟩ .blank []).run boxed =
      (.ok ⟨⟨.impl ⟨0⟩, .inherent, .blank, .byBorrow .shared, ⟨64⟩, 0, e⟩, 1, .byValue, false,
        false⟩, s') := by
  have hvalues := boxed_values
  simp only [Prod.mk.injEq] at hvalues
  obtain ⟨-, -, -, -, hmeaning⟩ := hvalues
  obtain ⟨e, s', hrun, -⟩ := resolve_behind_pointers boxes_reveal boxed_reached
    (boxed_has (by decide)) hmeaning (by simp) {} (by decide) .empty []
  exact ⟨e, s', hrun⟩

end Declarations.Reveals

end DotCall
