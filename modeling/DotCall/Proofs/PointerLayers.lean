import DotCall.Proofs.OwnMethods

/-!
# Layers of pointers

A type is wrapped in layers, each a borrow or a pointer type with one parameter, for
which a rule says that it dereferences to its argument.  No variable, parameter or error
occurs in a wrapped nominal type, so matching is equality there, and each dereference
takes off the outermost layer (`derefsTo_wrapped`).

The chain of a wrapped type is thus the list of all its inner parts, in order.  That the
search for the chain does not come back to a type before is due to their heights: each
type of the chain is lower than all before it, which carries the induction
(`derefChain_wrapped`).
-/

namespace DotCall

open TypeStore

/-- What is put around a type: a borrow, or a pointer type with one argument. -/
inductive Layer where
  | borrow (b : Borrow)
  | pointer (name : Symbol)
  deriving DecidableEq

namespace Layer

/-- The former of a layer. -/
def former : Layer → Former
  | .borrow b => .ref b
  | .pointer name => .nominal name

theorem former_injective {l l' : Layer} (h : l.former = l'.former) : l = l' := by
  cases l <;> cases l' <;> simp_all [former]

end Layer

namespace Tree

/-- The nominal type `core` without arguments in the given layers, the outermost first. -/
def wrapped (core : Symbol) : List Layer → Tree
  | [] => .app (.nominal core) []
  | l :: layers => .app l.former [wrapped core layers]

variable {core : Symbol} {layers layers' : List Layer}

theorem atoms_wrapped (core : Symbol) (layers : List Layer) : (wrapped core layers).atoms = [] := by
  induction layers with
  | nil => rfl
  | cons l layers ih => simp [wrapped, atoms, atomsAll, ih]

theorem wrapped_proper (core : Symbol) (layers : List Layer) : (wrapped core layers).Proper := by
  simp [Proper, atoms_wrapped]

theorem wrapped_subst (σ : Assignment) : (wrapped core layers).subst σ = wrapped core layers :=
  subst_of_no_var fun id => by simp [atoms_wrapped]

/-- The layers can be read off a wrapped type. -/
theorem wrapped_injective (h : wrapped core layers = wrapped core layers') : layers = layers' := by
  induction layers generalizing layers' with
  | nil =>
      cases layers' with
      | nil => rfl
      | cons l' layers' => simp [wrapped] at h
  | cons l layers ih =>
      cases layers' with
      | nil => simp [wrapped] at h
      | cons l' layers' =>
          simp only [wrapped, Tree.app.injEq, List.cons.injEq, and_true] at h
          rw [Layer.former_injective h.1, ih h.2]

/-- Nothing but itself matches a wrapped type. -/
theorem matches_wrapped_iff {n : Nat} :
    (wrapped core layers).Matches n (wrapped core layers') ↔ layers' = layers := by
  constructor
  · intro h
    obtain ⟨a, ha, -⟩ | ⟨a, ha, -⟩ | ⟨heq, -⟩ | ⟨-, -, args, -, σ, hσ⟩ := h
    · simp [atoms_wrapped] at ha
    · simp [atoms_wrapped] at ha
    · exact wrapped_injective heq
    · have hbare : (wrapped core layers).Bare args.length := by simp [Bare, atoms_wrapped]
      rw [hbare.fill_eq, wrapped_subst] at hσ
      exact (wrapped_injective hσ).symm
  · intro h
    rw [h]
    exact .inr (.inr (.inl ⟨rfl, by simp [Bare, atoms_wrapped]⟩))

/-- Each layer adds one to the height. -/
theorem height_wrapped (core : Symbol) (layers : List Layer) :
    (wrapped core layers).height = layers.length + 1 := by
  induction layers with
  | nil => rfl
  | cons l layers ih => simp [wrapped, height, heightAll, ih]

/-- Passing a wrapped type wraps it once more or not at all. -/
theorem tree_wrapped (p : Passing) :
    p.tree (wrapped core layers) = wrapped core (match p with
      | .byValue => layers
      | .byBorrow b => .borrow b :: layers) := by
  cases p <;> rfl

end Tree

/-- By this rule the pointer type `name` dereferences to its argument. -/
structure Rule.PointsTo (rule : Rule) (s : TypeStore) (name : Symbol) : Prop where
  arity : rule.arity = 1
  source : s.Reads (.app (.nominal name) [.atom (.param 0)]) rule.source
  target : s.Reads (.atom (.param 0)) rule.target

namespace Rule.PointsTo

open DotCall.Tree

variable {rule : Rule} {s : TypeStore} {name core : Symbol} {layers : List Layer} {result : Tree}

/-- A rule that points refers to types of the store. -/
theorem closed (h : rule.PointsTo s name) : rule.Closed s where
  source_has := h.source.1
  target_has := h.target.1
  source_fixed := by
    rw [h.source.2]
    simp [Fixed]
  target_fixed := by
    rw [h.target.2]
    simp [Fixed]

/-- The rule applies to a type wrapped in its pointer. -/
theorem applies (h : rule.PointsTo s name) :
    rule.Applies s (wrapped core (.pointer name :: layers)) := by
  refine ⟨by simp [wrapped, Tree.head?], ?_, .inr (.inr (.inr ?_))⟩
  · rw [h.source.2]
    rfl
  · refine ⟨wrapped_proper _ _, ?_, [wrapped core layers], by simp [h.arity],
      fun id => .atom (.var id), ?_⟩
    · intro position hp
      rw [h.source.2] at hp
      obtain rfl : position = 0 := by simpa using hp
      simp [h.arity]
    · rw [subst_self, h.source.2]
      simp [wrapped, Layer.former]

/-- The rule applies to nothing else that is wrapped. -/
theorem of_applies (h : rule.PointsTo s name) (happ : rule.Applies s (wrapped core layers)) :
    ∃ inner, layers = .pointer name :: inner := by
  obtain ⟨-, hhead, hmatch⟩ := happ
  rw [h.source.2] at hhead hmatch
  cases layers with
  | nil =>
      exfalso
      obtain ⟨a, ha, -⟩ | ⟨a, ha, hbad⟩ | ⟨heq, -⟩ | ⟨-, -, args, -, σ, hσ⟩ := hmatch
      · simp [atoms_wrapped] at ha
      · obtain rfl : a = .param 0 := by simpa using ha
        simp [Atom.IsError] at hbad
      · simp [wrapped] at heq
      · rw [wrapped_subst] at hσ
        simp [wrapped] at hσ
  | cons l inner =>
      cases l with
      | borrow b => simp [wrapped, Layer.former, Tree.head?, Former.head] at hhead
      | pointer other =>
          obtain rfl : name = other := by
            simpa [wrapped, Layer.former, Tree.head?, Former.head] using hhead
          exact ⟨inner, rfl⟩

/-- What the rule makes of a wrapped type is what is inside. -/
theorem eq_of_yields (h : rule.PointsTo s name)
    (hyields : rule.Yields s (wrapped core (.pointer name :: layers)) result) :
    result = wrapped core layers := by
  obtain ⟨args, hlen, -, ⟨hsuits, -⟩, -, rfl⟩ := hyields
  obtain ⟨arg, rfl⟩ : ∃ arg, args = [arg] := List.length_eq_one_iff.mp (hlen.trans h.arity)
  rw [h.source.2] at hsuits
  obtain ⟨a, ha, -⟩ | ⟨a, ha, hbad⟩ | ⟨σ, hσ⟩ := hsuits
  · simp [atoms_wrapped] at ha
  · obtain rfl : a = .param 0 := by simpa using ha
    simp [Atom.IsError] at hbad
  · rw [wrapped_subst] at hσ
    have harg : arg = wrapped core layers := by simpa [wrapped, Layer.former] using hσ
    rw [h.target.2, harg]
    simp

end Rule.PointsTo

/-- The rules for dereferencing are those of the given pointer types. -/
structure Declarations.DerefsPointers (d : Declarations) (s : TypeStore)
    (pointers : List Symbol) : Prop where
  only : ∀ rule ∈ d.derefs, ∃ name ∈ pointers, rule.PointsTo s name
  all : ∀ name ∈ pointers, ∃ rule ∈ d.derefs, rule.PointsTo s name

namespace Declarations.DerefsPointers

open DotCall.Tree

variable {d : Declarations} {s : TypeStore} {pointers : List Symbol} {core : Symbol}
  {l : Layer} {layers : List Layer} {result? : Option Tree}

/-- A pointer is dereferenced to what it points to and to nothing else: every rule that
applies to it is the one of its name. -/
theorem converts_pointer (h : d.DerefsPointers s pointers) {name : Symbol} (hname : name ∈ pointers)
    (hconverts : Converts d.derefs s (wrapped core (.pointer name :: layers)) result?) :
    result? = some (wrapped core layers) := by
  classical
  unfold Converts at hconverts
  cases hfind : d.derefs.find? fun rule =>
      decide (rule.Applies s (wrapped core (.pointer name :: layers))) with
  | none =>
      obtain ⟨rule, hrule, hpoints⟩ := h.all name hname
      have hnot := List.find?_eq_none.mp hfind rule hrule
      exact absurd hpoints.applies (by simpa using hnot)
  | some rule =>
      rw [hfind] at hconverts
      obtain ⟨result, rfl, hyields⟩ := hconverts
      have happ : rule.Applies s (wrapped core (.pointer name :: layers)) := by
        simpa using List.find?_some hfind
      obtain ⟨other, -, hpoints⟩ := h.only rule (List.mem_of_find?_eq_some hfind)
      obtain ⟨inner, heq⟩ := hpoints.of_applies happ
      obtain ⟨hlayer, -⟩ := List.cons.inj heq
      obtain rfl := Layer.pointer.inj hlayer
      rw [hpoints.eq_of_yields hyields]

/-- **Dereferencing takes off a layer**, and nothing comes of the nominal type inside. -/
theorem derefsTo_wrapped (h : d.DerefsPointers s pointers)
    (hlayers : ∀ name, .pointer name ∈ layers → name ∈ pointers)
    (hderefs : d.DerefsTo s (wrapped core layers) result?) :
    result? = layers.tail?.map (wrapped core) := by
  cases layers with
  | nil =>
      rw [derefsTo_of_not_ref (by simp [wrapped])] at hderefs
      unfold Converts at hderefs
      split at hderefs
      · exact hderefs
      · next rule hfind =>
          obtain ⟨name, -, hpoints⟩ := h.only rule (List.mem_of_find?_eq_some hfind)
          obtain ⟨inner, heq⟩ := hpoints.of_applies (by simpa using List.find?_some hfind)
          simp at heq
  | cons l layers =>
      cases l with
      | borrow b => exact hderefs
      | pointer name =>
          rw [derefsTo_of_not_ref (by simp [wrapped, Layer.former])] at hderefs
          exact h.converts_pointer (hlayers name List.mem_cons_self) hderefs

end Declarations.DerefsPointers

/-- The types of the chain are expanded and mean a wrapped type, what is inside its first
layer, and so on to the nominal type. -/
structure Peels (y : TypeStore) (core : Symbol) (layers : List Layer) (chain : List TypeId) :
    Prop where
  expanded : ∀ t ∈ chain, y.Expanded t
  meanings : chain.map y.meaning = layers.tails.map (Tree.wrapped core)

namespace Peels

open DotCall.Tree

variable {y z : TypeStore} {core : Symbol} {layers : List Layer} {chain : List TypeId}

/-- There is one type for each layer and one for the core. -/
theorem length (h : Peels y core layers chain) : chain.length = layers.length + 1 := by
  simpa using congrArg List.length h.meanings

theorem quiet (h : Peels y core layers chain) (hq : Quiet y z) : Peels z core layers chain where
  expanded t ht := (h.expanded t ht).quiet hq
  meanings := by
    rw [← h.meanings]
    exact List.map_congr_left fun t ht => hq.meaning_eq (h.expanded t ht).1

/-- At the `i`-th place of the chain `i` layers have been taken off. -/
theorem meaning_eq (h : Peels y core layers chain) {i : Nat} {t : TypeId} (ht : chain[i]? = some t) :
    y.meaning t = wrapped core (layers.drop i) := by
  obtain ⟨hi, -⟩ := List.getElem?_eq_some_iff.mp ht
  have htails : layers.tails[i]? = some (layers.drop i) :=
    List.getElem?_eq_some_iff.mpr ⟨by simpa [h.length] using hi, List.getElem_tails layers i _⟩
  have hplace := congrArg (·[i]?) h.meanings
  simpa [ht, htails] using hplace

/-- The nominal type is the last of the chain. -/
theorem getLast? (h : Peels y core layers chain) :
    ∃ last ∈ chain, chain.getLast? = some last ∧ y.meaning last = wrapped core [] := by
  have hlength := h.length
  obtain ⟨last, hlast⟩ : ∃ last, chain[layers.length]? = some last :=
    ⟨_, List.getElem?_eq_getElem (by omega)⟩
  refine ⟨last, List.mem_of_getElem? hlast, ?_, ?_⟩
  · rw [List.getLast?_eq_getElem?, hlength]
    exact hlast
  · rw [h.meaning_eq hlast, List.drop_length]

end Peels

namespace Resolver

open DotCall.Tree

variable {d : Declarations} (settings : Settings) (bounds : Bounds) {s x : TypeStore}
  {pointers : List Symbol} {core : Symbol} {layers : List Layer} (receiver : TypeId)
  {current : TypeId}

/-- All types that were seen mean trees higher than `n`. -/
def Higher (x : TypeStore) (n : Nat) (seen : List TypeId) : Prop :=
  ∀ t ∈ seen, x.Has t ∧ n < (x.meaning t).height

/-- The present type is none of those seen before, as all of them are higher. -/
theorem Higher.not_mem {n : Nat} {seen : List TypeId} (h : Higher x n seen)
    (hcurrent : (x.meaning current).height = n) : current ∉ seen := by
  intro hmem
  obtain ⟨-, hlower⟩ := h current hmem
  omega

/-- The type that was dereferenced has been seen, and what comes of it is lower. -/
theorem Higher.cons {y : TypeStore} {n : Nat} {seen : List TypeId} (h : Higher x (n + 1) seen)
    (hq : Quiet x y) (hhas : x.Has current) (hcurrent : (x.meaning current).height = n + 1) :
    Higher y n (current :: seen) := by
  intro t ht
  rcases List.mem_cons.mp ht with rfl | ht
  · rw [hq.meaning_eq hhas]
    exact ⟨hq.has hhas, by omega⟩
  · obtain ⟨hseen, hlower⟩ := h t ht
    rw [hq.meaning_eq hseen]
    exact ⟨hq.has hseen, by omega⟩

/-- **The chain of a wrapped type** is made of all that is inside. -/
theorem derefChain_wrapped (hs : s.Sound) (hd : d.Closed s) (hp : d.DerefsPointers s pointers)
    (hlayers : ∀ name, .pointer name ∈ layers → name ∈ pointers) {room : Nat}
    (hroom : layers.length < room) (hx : Quiet s x) (hcurrent : x.Expanded current)
    (hmeaning : x.meaning current = wrapped core layers) {seen : List TypeId}
    (hseen : Higher x (layers.length + 1) seen) :
    ∃ chain y, ((d.resolver settings bounds).derefChain receiver room seen current).run x =
      (.ok chain, y) ∧ Quiet x y ∧ Peels y core layers chain := by
  induction room generalizing x layers seen current with
  | zero => omega
  | succ room ih =>
      have hheight : (x.meaning current).height = layers.length + 1 := by
        rw [hmeaning, height_wrapped]
      have hnew : current ∉ seen := hseen.not_mem hheight
      obtain ⟨hq, hderefs, hfollows⟩ :=
        Declarations.deref?_run hs hd hx hcurrent.1 (.inr hcurrent.plain)
      obtain ⟨⟨next?, y⟩, hy⟩ : ∃ y, (d.deref? current).run x = y := ⟨_, rfl⟩
      rw [hy] at hq hderefs hfollows
      have hcoerce : ((d.resolver settings bounds).coercions.deref? current).run x = (next?, y) := hy
      rw [hmeaning] at hderefs
      have hnext := hp.derefsTo_wrapped hlayers hderefs
      cases next? with
      | none =>
          obtain rfl : layers = [] := by
            cases layers with
            | nil => rfl
            | cons l layers => simp at hnext
          refine ⟨[current], y, ?_, hq, by simpa using hcurrent.quiet hq, ?_⟩
          · simp only [derefChain, hnew, if_false, run_bind, hcoerce, run_pure]
          · simp [hq.meaning_eq hcurrent.1, hmeaning]
      | some next =>
          obtain ⟨l, layers, rfl⟩ : ∃ l rest, layers = l :: rest := by
            cases layers with
            | nil => simp at hnext
            | cons l layers => exact ⟨l, layers, rfl⟩
          obtain ⟨hq₁, hexpanded, hinner⟩ := hq.finish.expand_expanded (hfollows next rfl).has
          obtain ⟨e, he⟩ : ∃ e, (expand next).run y = e := ⟨_, rfl⟩
          rw [he] at hq₁ hexpanded hinner
          have hmeaning' : e.2.meaning e.1 = wrapped core layers :=
            hinner.trans (Option.some.inj hnext)
          have hqe := hq.trans hq₁
          obtain ⟨rest, z, hrest, hq₂, hall, hmeanings⟩ := ih
            (fun name hmem => hlayers name (List.mem_cons_of_mem l hmem)) (by simpa using hroom)
            (hx.trans hqe) hexpanded hmeaning' (hseen.cons hqe hcurrent.1 hheight)
          refine ⟨current :: rest, z, ?_, hqe.trans hq₂, ?_, ?_⟩
          · simp only [derefChain, hnew, if_false, run_bind, hcoerce, he, hrest, run_pure]
          · exact List.forall_mem_cons.mpr ⟨hcurrent.quiet (hqe.trans hq₂), hall⟩
          · rw [List.map_cons, hmeanings, (hqe.trans hq₂).meaning_eq hcurrent.1, hmeaning,
              List.tails_cons, List.map_cons]

variable {receiver}

/-- **The steps of a wrapped type** are its chain: no rule unsizes a nominal type. -/
theorem stepsOf_wrapped (hs : s.Sound) (hd : d.Closed s) (hp : d.DerefsPointers s pointers)
    (hunsizings : d.unsizings = []) (hlayers : ∀ name, .pointer name ∈ layers → name ∈ pointers)
    (hbound : layers.length ≤ settings.maxDerefs) (hx : Quiet s x) (ht : x.Has receiver)
    (hmeaning : x.meaning receiver = wrapped core layers) :
    ∃ (chain : List TypeId) (y : TypeStore),
      ((d.resolver settings bounds).stepsOf receiver).run x = (.ok (chain.map (⟨·, false⟩)), y) ∧
        Quiet x y ∧ Peels y core layers chain := by
  obtain ⟨hq, hexpanded, hfirst⟩ := hx.finish.expand_expanded ht
  obtain ⟨e, he⟩ : ∃ e, (expand receiver).run x = e := ⟨_, rfl⟩
  rw [he] at hq hexpanded hfirst
  obtain ⟨chain, y, hchain, hq₁, hpeels⟩ := derefChain_wrapped settings bounds receiver hs
    hd hp hlayers (Nat.lt_succ_of_le hbound) (hx.trans hq) hexpanded (hfirst.trans hmeaning)
    (List.forall_mem_nil _)
  obtain ⟨last, hmem, hlast, hcore⟩ := hpeels.getLast?
  have hexpandedLast := hpeels.expanded last hmem
  obtain ⟨hq₂, hunsizes, -⟩ := Declarations.unsize?_run hs hd (hx.trans (hq.trans hq₁))
    hexpandedLast.1 (.inr hexpandedLast.plain)
  obtain ⟨⟨target?, z⟩, hz⟩ : ∃ z, (d.unsize? last).run y = z := ⟨_, rfl⟩
  rw [hz] at hq₂ hunsizes
  have hcoerce : ((d.resolver settings bounds).coercions.unsize? last).run y = (target?, z) := hz
  have hnone : target? = none := by
    rw [hcore, Declarations.unsizesTo_of_not_array (by simp [wrapped]), hunsizings] at hunsizes
    exact Option.map_eq_none_iff.mp hunsizes
  refine ⟨chain, z, ?_, hq.trans (hq₁.trans hq₂), hpeels.quiet hq₂⟩
  have hlimit : (d.resolver settings bounds).settings.maxDerefs = settings.maxDerefs := rfl
  simp only [stepsOf, run_bind, he, hlimit, hchain, unsizeLast?, hlast, hcoerce, hnone, run_pure,
    Option.toList_none, List.map_nil, List.append_nil]

end Resolver

end DotCall
