import DotCall.Call.Outcome
import DotCall.Proofs.ImplIndex

/-!
# Programs with one impl

The smallest program in which a call is resolved: one inherent impl for a nominal
type, with one method that takes its receiver by value, and no rules.  A receiver
that means the self type of the impl has itself as its only step, the method is the
only candidate, and it is chosen (`resolve_single`).
-/

namespace DotCall

open TypeStore DotCall.Tree

namespace Declarations

variable {d : Declarations} {settings : Settings} {bounds : Bounds} {s x : TypeStore}
  {t receiver : TypeId}

/-- Without rules a nominal type is its only step. -/
theorem stepsOf_of_no_rules (settings : Settings) (bounds : Bounds) (hs : s.Sound) (hd : d.Closed s)
    (hderefs : d.derefs = []) (hunsizings : d.unsizings = []) (hx : Quiet s x) (ht : x.Has t)
    {name : Symbol} {parts : List Tree} (hmeaning : x.meaning t = .app (.nominal name) parts) :
    ∃ first y, ((d.resolver settings bounds).stepsOf t).run x = (.ok [⟨first, false⟩], y) ∧
      Quiet x y ∧ y.Expanded first ∧ y.meaning first = x.meaning t := by
  obtain ⟨hq₁, hexpanded, hfirst⟩ := hx.finish.expand_expanded ht
  obtain ⟨e, he⟩ : ∃ e, (expand t).run x = e := ⟨_, rfl⟩
  rw [he] at hq₁ hexpanded hfirst
  rw [hmeaning] at hfirst
  obtain ⟨hq₂, hderef, -⟩ := deref?_run hs hd (hx.trans hq₁) hexpanded.1 (.inr hexpanded.plain)
  obtain ⟨y, hy⟩ : ∃ y, (d.deref? e.1).run e.2 = y := ⟨_, rfl⟩
  rw [hy] at hq₂ hderef
  have hnone : y.1 = none := by
    rw [hfirst, derefsTo_of_not_ref (by simp), hderefs] at hderef
    exact Option.map_eq_none_iff.mp hderef
  have hexpanded₂ := hexpanded.quiet hq₂
  obtain ⟨hq₃, hunsize, -⟩ := unsize?_run hs hd (hx.trans (hq₁.trans hq₂)) hexpanded₂.1
    (.inr hexpanded₂.plain)
  obtain ⟨z, hz⟩ : ∃ z, (d.unsize? e.1).run y.2 = z := ⟨_, rfl⟩
  rw [hz] at hq₃ hunsize
  have hnone' : z.1 = none := by
    rw [hq₂.meaning_eq hexpanded.1, hfirst, unsizesTo_of_not_array (by simp), hunsizings] at hunsize
    exact Option.map_eq_none_iff.mp hunsize
  have hderefRun : ((d.resolver settings bounds).coercions.deref? e.1).run e.2 = y := hy
  have hunsizeRun : ((d.resolver settings bounds).coercions.unsize? e.1).run y.2 = z := hz
  refine ⟨e.1, z.2, ?_, hq₁.trans (hq₂.trans hq₃), hexpanded₂.quiet hq₃, ?_⟩
  · simp only [Resolver.stepsOf, run_bind, he, Resolver.derefChain, List.not_mem_nil, if_false,
      hderefRun, hnone, run_pure, Resolver.unsizeLast?, List.getLast?_singleton, hunsizeRun, hnone']
    rfl
  · rw [(hq₂.trans hq₃).meaning_eq hexpanded.1, hfirst, hmeaning]

/-- A program with one inherent impl, which has one method and takes its receiver
by value. -/
def single (s : TypeStore) (self : TypeId) (method : Symbol) : Declarations :=
  (empty.addImpl s ⟨none, [], self, [⟨method, some .byValue⟩], []⟩).2

section Single

variable {self first : TypeId} {method name : Symbol} {parts : List Tree}

theorem impl?_single {id : ImplId} {decl : ImplDecl} :
    (single s self method).impl? id = some decl ↔
      id = ⟨0⟩ ∧ decl = ⟨none, [], self, [⟨method, some .byValue⟩], []⟩ := by
  unfold single
  rw [impl?_addImpl]
  simp [empty, impl?, eq_comm]

/-- Declarations with one impl refer to types the store has, as soon as its self type is
one without variables. -/
theorem single_closed (method : Symbol) (hself : s.Has self) (hfixed : (s.written self).Fixed) :
    (single s self method).Closed s where
  self hdecl := by
    obtain ⟨-, rfl⟩ := impl?_single.mp hdecl
    exact ⟨hself, hfixed⟩
  condition hdecl := by
    obtain ⟨-, rfl⟩ := impl?_single.mp hdecl
    simp
  deref rule hrule := by simp [single, addImpl, empty] at hrule
  unsizing rule hrule := by simp [single, addImpl, empty] at hrule

/-- The one impl stands in the index under the head of its self type. -/
theorem single_indexed (hs : s.Sound) (hself : s.Has self) (hfixed : (s.written self).Fixed) :
    (single s self method).Indexed s := by
  have hempty : empty.Indexed s := ⟨by simp [empty, impl?], by simp [empty, impl?]⟩
  exact hempty.addImpl hs.wellFormed hs.wellFormed (.refl s) hself hfixed

theorem provides?_single {visible : List TraitId} :
    ((single s self method).resolver settings bounds).provides? method visible ⟨0⟩ =
      some ⟨⟨none, [], self, [⟨method, some .byValue⟩], []⟩, .inherent, some .byValue⟩ := by
  have himpl : (single s self method).impl? ⟨0⟩ =
      some ⟨none, [], self, [⟨method, some .byValue⟩], []⟩ := impl?_single.mpr ⟨rfl, rfl⟩
  have hdb : ((single s self method).resolver settings bounds).db = (single s self method).database :=
    rfl
  simp [Resolver.provides?, hdb, database, himpl, methodOfImpl?, ImplDecl.standing?,
    MethodTable.get?]

/-- A nominal type has no methods by itself. -/
theorem gatherOffers_nominal {r : Resolver} (hx : x.Ordered) (hfirst : x.Has first)
    (hmeaning : x.meaning first = .app (.nominal name) parts) :
    ((r.gatherOffers method [⟨first, false⟩]).run x).1 = [] := by
  obtain ⟨hroot, hq⟩ := hx.findRoot_quiet first
  obtain ⟨y, hy⟩ : ∃ y, (findRoot first).run x = y := ⟨_, rfl⟩
  rw [hy] at hroot hq
  have hnode : ∃ args, x.node (x.root first) = .app (.nominal name) args := by
    cases hn : x.node (x.root first) with
    | atom a => simp [meaning_of_atom hn] at hmeaning
    | app f args =>
        rw [hx.meaning_of_app hn] at hmeaning
        exact ⟨args, by rw [(Tree.app.inj hmeaning).1]⟩
  obtain ⟨args, hn⟩ := hnode
  have hoffers : r.offers method y.2 (x.root first) = [] := by
    simp [Resolver.offers, Resolver.ownTraits, hq.node_eq (hx.has_root hfirst), hn]
  simp only [Resolver.gatherOffers, List.mapM_cons, List.mapM_nil, run_bind, hy, hroot, run_pure,
    run_get, List.flatMap_cons, List.flatMap_nil, hoffers, List.append_nil]
  rfl

/-- The one method is gathered for a step that means its self type. -/
theorem gather_single (settings : Settings) (bounds : Bounds) (method : Symbol) (hs : s.Sound)
    (hself : s.Has self) (hfixed : (s.written self).Fixed) (hx : Quiet s x)
    (hfirst : x.Expanded first) (hmeaning : x.meaning first = s.written self)
    (hnominal : s.written self = .app (.nominal name) parts) (visible : List TraitId) :
    let g := (((single s self method).resolver settings bounds).gather method [⟨first, false⟩]
      visible).run x
    Quiet x g.2 ∧ ∃ e, g.2.Reads (s.written self) e ∧
      g.1 = ⟨[⟨.impl ⟨0⟩, .inherent, method, .byValue, self, 0, e⟩], [], []⟩ := by
  classical
  intro g
  have hclosed := single_closed method hself hfixed
  have hindex : (single s self method).Indexed x :=
    (single_indexed hs hself hfixed).quiet hclosed hx
  have hselfx : ((single s self method).resolver settings bounds).SelfFixed x :=
    hclosed.selfFixed hx
  have hwritten := hx.written_eq hself
  have hsteps : ∀ step ∈ [(⟨first, false⟩ : Step)], x.Expanded step.ty := by simpa using hfirst
  have hmatch : (x.written self).Matches 0 (x.meaning first) :=
    .inr (.inr (.inl ⟨by rw [hmeaning, hwritten], fun _ _ => Nat.zero_le _⟩))
  obtain ⟨hqo, hqg, -, found, hfound, hg⟩ :=
    Resolver.gather_run (hs.quiet hx) hselfx hsteps method visible
  have hrelevant : ∀ y, Quiet x y → ((single s self method).resolver settings bounds).relevantImpls y
      [⟨first, false⟩] = [⟨0⟩] := by
    intro y hy
    have hall : (single s self method).allImpls = [⟨0⟩] := rfl
    rw [hindex.relevantImpls_eq, hall, List.filter_eq_self]
    intro id hid
    obtain rfl := List.mem_singleton.mp hid
    refine decide_eq_true ⟨_, impl?_single.mpr ⟨rfl, rfl⟩, .inr (.inr ⟨_, List.mem_cons_self, .inr ?_⟩)⟩
    rw [hy.finish.head?_eq, hy.meaning_eq hfirst.1, hmeaning, hwritten]
  rw [hrelevant _ hqo] at hfound
  rw [gatherOffers_nominal hx.finish hfirst.1 (hmeaning.trans hnominal)] at hg
  cases hfound with
  | cons ho hrest =>
      cases hrest
      unfold Resolver.Contributes at ho
      simp only [provides?_single] at ho
      obtain ⟨definition, ⟨e, he, rfl⟩, ⟨-, rfl⟩ | ⟨hnot, -⟩⟩ := ho
      · exact ⟨hqo.trans hqg, e, hwritten ▸ he, hg⟩
      · exact absurd ⟨_, List.mem_cons_self, .byValue, hmatch⟩ hnot

/-- A candidate that accepts the only step by value is found. -/
theorem search_singleton {r : Resolver} {c : Candidate} (hs : s.Ordered) (hr : r.Within s)
    (ht : s.Has t) (hc : s.Has c.expected) (haccepts : r.acceptsAlone s .byValue t c = true)
    (method : Symbol) (receiver : TypeId) :
    ∃ s', (r.search method receiver [⟨t, false⟩] ⟨[c], [], []⟩).run s =
      (.ok ⟨c, 0, .byValue, false, false⟩, s') ∧ Quiet s s' := by
  have hsteps : ∀ step ∈ [(⟨t, false⟩ : Step)], s.Has step.ty := by simpa using ht
  have hg : ∀ p, ∀ c' ∈ (⟨[c], [], []⟩ : Gathering).candidates p, s.Has c'.expected := by
    intro p
    cases p <;> simp [Gathering.candidates, hc]
  obtain ⟨hq, houtcome⟩ := Resolver.calm_search hr hsteps hg method receiver s (.refl hs)
  refine ⟨_, Prod.ext ?_ rfl, hq⟩
  have hmatching : r.matching s ⟨[c], [], []⟩ ⟨⟨t, false⟩, 0, .byValue, .inherent⟩ = [c] := by
    simp [Resolver.matching, Gathering.candidates, haccepts]
  have hdecision : r.decision s method receiver ⟨[c], [], []⟩
      ⟨⟨t, false⟩, 0, .byValue, .inherent⟩ = some (.ok ⟨c, 0, .byValue, false, false⟩) := by
    unfold Resolver.decision
    rw [hmatching]
    rfl
  rw [houtcome]
  simp [placesIn, placesOf, Passing.all, hdecision]

/-- **A call on the self type** of the one impl is resolved to its method. -/
theorem resolve_single (settings : Settings) (bounds : Bounds) (method : Symbol) (hs : s.Sound)
    (hself : s.Has self) (hfixed : (s.written self).Fixed)
    (ht : s.Has receiver) (herror : s.root receiver ≠ .error)
    (hmeaning : s.meaning receiver = s.written self)
    (hnominal : s.written self = .app (.nominal name) parts) (visible : List TraitId) :
    ∃ e s', (((single s self method).resolver settings bounds).resolve receiver method visible).run s =
        (.ok ⟨⟨.impl ⟨0⟩, .inherent, method, .byValue, self, 0, e⟩, 0, .byValue, false, false⟩, s') ∧
      Quiet s s' ∧ s'.Reads (s.written self) e := by
  obtain ⟨r, hr⟩ : ∃ r, (single s self method).resolver settings bounds = r := ⟨_, rfl⟩
  have hclosed := single_closed method hself hfixed
  obtain ⟨hroot, hq₁⟩ := hs.ordered.findRoot_quiet receiver
  obtain ⟨x₁, hx₁⟩ : ∃ x₁, (findRoot receiver).run s = x₁ := ⟨_, rfl⟩
  rw [hx₁] at hroot hq₁
  have hhas : s.Has (s.root receiver) := hs.ordered.has_root ht
  have hrootMeaning : x₁.2.meaning (s.root receiver) = s.written self := by
    rw [hq₁.meaning_eq hhas, hs.ordered.meaning_root, hmeaning]
  obtain ⟨first, x₂, hsteps, hq₂, hfirst, hfirstMeaning⟩ := stepsOf_of_no_rules settings bounds hs
    hclosed rfl rfl hq₁ (hq₁.has hhas) (hrootMeaning.trans hnominal)
  rw [hrootMeaning] at hfirstMeaning
  obtain ⟨hq₃, e, he, hgathered⟩ := gather_single settings bounds method hs hself hfixed (hq₁.trans hq₂) hfirst hfirstMeaning hnominal visible
  rw [hr] at hsteps hq₃ he hgathered
  obtain ⟨g, hg⟩ : ∃ g, (r.gather method [⟨first, false⟩] visible).run x₂ = g := ⟨_, rfl⟩
  rw [hg] at hq₃ he hgathered
  have hqg : Quiet s g.2 := hq₁.trans (hq₂.trans hq₃)
  have hstands : Candidate.Stands ⟨.impl ⟨0⟩, .inherent, method, .byValue, self, 0, e⟩ g.2 :=
    ⟨he.1, he.2 ▸ hfixed⟩
  have hfirst₃ := hfirst.quiet hq₃
  have hdecl : r.db.impl? ⟨0⟩ = some ⟨none, [], self, [⟨method, some .byValue⟩], []⟩ := by
    rw [← hr]
    exact impl?_single.mpr ⟨rfl, rfl⟩
  have haccepts := (Resolver.acceptsAlone_iff (r := r) (hs.quiet hqg) hstands hfirst₃ .byValue).2 rfl
    hdecl rfl (.inr (.inr (.inl ⟨by
      rw [he.2, ← hfirstMeaning, ← hq₃.meaning_eq hfirst.1]
      rfl, fun _ _ => Nat.zero_le _⟩)))
  obtain ⟨s', hsearch, hq₄⟩ := search_singleton hqg.finish (hr ▸ hclosed.within hqg) hfirst₃.1 he.1
    haccepts method (s.root receiver)
  refine ⟨e, s', ?_, hqg.trans hq₄, hq₄.reads he⟩
  rw [hr]
  simp only [Resolver.resolve, run_bind, hx₁, hroot, herror, if_false, hsteps, hg, hgathered, hsearch]
  rfl

end Single

end Declarations

end DotCall
