import DotCall.Proofs.TypeRebuilding

/-!
# Stores that differ only in what came with them

Two stores are twins when they hold the same types as far as these matter: a
renaming takes the known variables of the left store to variables of the right
one with bindings of the same sort, and links lead to types that are written
alike.  Other types and variables may be in either store, and links may be
shortened differently.

A pair of types stays a pair under everything that is done on both sides alike,
and what is done quietly on one side only does not matter.
-/

namespace DotCall

/-- An atom renamed, if it is a variable. -/
def Atom.rename (ρ : Nat → Nat) : Atom → Atom
  | .var id => .var (ρ id)
  | a => a

/-- Only variables are renamed. -/
theorem Atom.rename_of_ne {ρ : Nat → Nat} {a : Atom} (h : ∀ id, a ≠ .var id) : a.rename ρ = a := by
  cases a with
  | var id => exact absurd rfl (h id)
  | _ => rfl

/-- A tree with its variables renamed. -/
def Tree.rename (ρ : Nat → Nat) (t : Tree) : Tree := t.subst fun id => .atom (.var (ρ id))

namespace Tree

variable {ρ : Nat → Nat} {t u : Tree} {a : Atom} {id : Nat}

@[simp] theorem rename_atom : (Tree.atom a).rename ρ = .atom (a.rename ρ) := by
  cases a <;> simp [rename, Atom.rename, subst]

@[simp] theorem rename_app {f : Former} {ts : List Tree} :
    (Tree.app f ts).rename ρ = .app f (ts.map (rename ρ)) := by
  simp [rename]

/-- Renamings that agree on the variables of a tree rename it alike. -/
theorem rename_congr {ρ' : Nat → Nat} (h : ∀ id, .var id ∈ t.atoms → ρ id = ρ' id) :
    t.rename ρ = t.rename ρ' :=
  subst_congr fun id hid => by rw [h id hid]

theorem rename_id : t.rename (fun id => id) = t := subst_self t

/-- Atoms other than variables are those of before. -/
theorem mem_atoms_rename (h : ∀ id, a ≠ .var id) : a ∈ (t.rename ρ).atoms ↔ a ∈ t.atoms := by
  rw [rename, mem_atoms_subst]
  simp [h]

/-- The variables of a renamed tree are those of the tree, renamed. -/
theorem var_mem_atoms_rename :
    .var id ∈ (t.rename ρ).atoms ↔ ∃ i, .var i ∈ t.atoms ∧ ρ i = id := by
  rw [rename, mem_atoms_subst]
  simp [eq_comm]

/-- A renaming that keeps the variables of two trees apart keeps the trees
apart. -/
theorem rename_injective (hinj : ∀ i j, .var i ∈ t.atoms → .var j ∈ u.atoms → ρ i = ρ j → i = j)
    (h : t.rename ρ = u.rename ρ) : t = u := by
  induction t generalizing u with
  | atom a =>
      cases u with
      | app g us => simp at h
      | atom b =>
          simp only [rename_atom, Tree.atom.injEq] at h ⊢
          cases a <;> cases b <;> simp_all [Atom.rename]
  | app f ts ih =>
      cases u with
      | atom b => simp at h
      | app g us =>
          simp only [rename_app, Tree.app.injEq] at h ⊢
          refine ⟨h.1, eq_of_map_eq (fun t ht u hu heq => ih t ht (fun i j hi hj => ?_) heq) h.2⟩
          exact hinj i j (mem_atoms_app.mpr ⟨t, ht, hi⟩) (mem_atoms_app.mpr ⟨u, hu, hj⟩)

/-- Renaming goes through the filling in of parameters. -/
theorem rename_fill (args : List Tree) :
    (t.fill args).rename ρ = (t.rename ρ).fill (args.map (rename ρ)) := by
  induction t with
  | atom a =>
      cases a with
      | param position =>
          rw [fill_param, rename_atom, Atom.rename_of_ne (by simp), fill_param, List.getElem?_map]
          cases args[position]? <;> simp [Atom.rename]
      | _ => simp [fill, Atom.rename]
  | app f ts ih =>
      simp only [fill_app, rename_app, List.map_map, Tree.app.injEq, true_and]
      exact List.map_congr_left ih

end Tree

namespace TypeStore

/-- The variables of a left store that are known to a right one, and what they
are called there. -/
structure Pairing where
  known : Nat → Prop
  rename : Nat → Nat

/-- The types `t` and `u` are written alike, in known variables. -/
structure Pairing.Pairs (p : Pairing) (x y : TypeStore) (t u : TypeId) : Prop where
  left : x.Has t
  right : y.Has u
  known : ∀ id, .var id ∈ (x.written t).atoms → p.known id
  written : y.written u = (x.written t).rename p.rename

/-- A pair of types stays one while the stores grow and more is known. -/
theorem Pairing.Pairs.grow {p p' : Pairing} {x y x' y' : TypeStore} {t u : TypeId}
    (h : p.Pairs x y t u) (hx : Works x x') (hy : Works y y')
    (hknown : ∀ {i}, p.known i → p'.known i)
    (hrename : ∀ {i}, p.known i → p'.rename i = p.rename i) : p'.Pairs x' y' t u := by
  have hleft : x'.written t = x.written t :=
    hx.start.wellFormed.written_grows hx.finish.wellFormed hx.grows h.left
  have hright : y'.written u = y.written u :=
    hy.start.wellFormed.written_grows hy.finish.wellFormed hy.grows h.right
  refine ⟨hx.grows.has h.left, hy.grows.has h.right, ?_, ?_⟩
  · rw [hleft]
    exact fun id hid => hknown (h.known id hid)
  · rw [hleft, hright, h.written]
    exact Tree.rename_congr fun id hid => (hrename (h.known id hid)).symm

/-- Only the types of the stores matter to what is written. -/
theorem Pairing.Pairs.congr {p : Pairing} {x y x' y' : TypeStore} {t u : TypeId}
    (h : p.Pairs x y t u) (hx : x'.entries = x.entries) (hy : y'.entries = y.entries) :
    p.Pairs x' y' t u := by
  refine ⟨?_, ?_, ?_, ?_⟩
  · simpa [Has, size, hx] using h.left
  · simpa [Has, size, hy] using h.right
  · simpa only [written_congr hx] using h.known
  · simpa only [written_congr hx, written_congr hy] using h.written

section Written

variable {p : Pairing} {x y : TypeStore} {t t' u : TypeId}

/-- Summaries of types that are written alike agree on everything but variables. -/
theorem Pairing.Pairs.fact_eq (h : p.Pairs x y t u) (hx : x.WellFormed) (hy : y.WellFormed)
    {fact : Summary → Bool} {sort : Atom → Prop} (htracks : Summary.Tracks fact sort)
    (hvar : ∀ id, ¬ sort (.var id)) : fact (y.summary u) = fact (x.summary t) := by
  rw [Bool.eq_iff_iff, htracks.summary_iff hx, htracks.summary_iff hy, h.written]
  constructor
  · rintro ⟨a, ha, hsort⟩
    have hne : ∀ id, a ≠ .var id := fun id heq => hvar id (heq ▸ hsort)
    exact ⟨a, (Tree.mem_atoms_rename hne).mp ha, hsort⟩
  · rintro ⟨a, ha, hsort⟩
    have hne : ∀ id, a ≠ .var id := fun id heq => hvar id (heq ▸ hsort)
    exact ⟨a, (Tree.mem_atoms_rename hne).mpr ha, hsort⟩

/-- What is one type on the right is one type on the left, when no two variables are
called the same. -/
theorem Pairing.Pairs.left_unique (h : p.Pairs x y t u) (h' : p.Pairs x y t' u)
    (hx : x.WellFormed)
    (hinj : ∀ {i j}, p.known i → p.known j → p.rename i = p.rename j → i = j) : t = t' := by
  refine hx.written_injective h.left h'.left ?_
  refine Tree.rename_injective (fun i j hi hj => ?_) (h.written.symm.trans h'.written)
  exact hinj (h.known i hi) (h'.known j hj)

/-- Types that are paired one by one are in their stores and are written alike in order.
-/
theorem Pairing.pairs_all {ts us : List TypeId} (h : List.Forall₂ (p.Pairs x y) ts us) :
    (∀ t ∈ ts, x.Has t) ∧ (∀ u ∈ us, y.Has u) ∧
      (∀ t ∈ ts, ∀ id, .var id ∈ (x.written t).atoms → p.known id) ∧
      us.map y.written = ts.map fun t => (x.written t).rename p.rename := by
  induction h with
  | nil => simp
  | cons hp _ ih =>
      obtain ⟨hl, hr, hknown, hwritten⟩ := ih
      refine ⟨?_, ?_, ?_, ?_⟩
      · exact List.forall_mem_cons.mpr ⟨hp.left, hl⟩
      · exact List.forall_mem_cons.mpr ⟨hp.right, hr⟩
      · exact List.forall_mem_cons.mpr ⟨hp.known, hknown⟩
      · simp [hp.written, hwritten]

/-- Instances of types that are written alike are written alike. -/
theorem Pairing.Pairs.instantiate_run (h : p.Pairs x y t u) (hx : x.Ordered) (hy : y.Ordered)
    {args args' : List TypeId} (hargs : List.Forall₂ (p.Pairs x y) args args') :
    let l := (instantiate t args).run x
    let r := (instantiate u args').run y
    Quiet x l.2 ∧ Quiet y r.2 ∧ p.Pairs l.2 r.2 l.1 r.1 := by
  obtain ⟨hleft, hright, hknown, hwritten⟩ := pairs_all hargs
  obtain ⟨hq, hhas, hw⟩ := hx.instantiate_run hleft h.left
  obtain ⟨hq', hhas', hw'⟩ := hy.instantiate_run hright h.right
  refine ⟨hq, hq', hhas, hhas', ?_, ?_⟩
  · rw [hw]
    intro id hid
    rcases Tree.mem_atoms_fill_iff.mp hid with ⟨hid, -⟩ | ⟨_, _, -, harg, hid⟩
    · exact h.known id hid
    · obtain ⟨a, ha, rfl⟩ := List.mem_map.mp (List.mem_of_getElem? harg)
      exact hknown a ha id hid
  · rw [hw, hw', h.written, hwritten, Tree.rename_fill, List.map_map]
    rfl

/-- Types that are written alike, wrapped in the same former. -/
theorem Pairing.Pairs.wrap (h : p.Pairs x y t u) {x' y' : TypeStore} {f : Former} {a b : TypeId}
    (hx : Quiet x x') (hy : Quiet y y') (ha : x'.Has a) (hna : x'.node a = .app f [t])
    (hb : y'.Has b) (hnb : y'.node b = .app f [u]) : p.Pairs x' y' a b := by
  have hwa : x'.written a = .app f [x.written t] := by
    simp [hx.finish.wellFormed.written_of_app hna, hx.written_eq h.left]
  have hwb : y'.written b = .app f [y.written u] := by
    simp [hy.finish.wellFormed.written_of_app hnb, hy.written_eq h.right]
  refine ⟨ha, hb, fun id hid => h.known id ?_, ?_⟩
  · simpa [hwa] using hid
  · simp [hwa, hwb, h.written]

end Written

/-- Bindings of the same sort; links lead to types that are written alike. -/
inductive Pairing.PairsBinding (p : Pairing) (x y : TypeStore) : Binding → Binding → Prop where
  | free {i j : Nat} {name name' : Option Symbol} :
      PairsBinding p x y (.free i name) (.free j name')
  | generic {name name' : Symbol} : PairsBinding p x y (.generic name) (.generic name')
  | linked {t u : TypeId} (h : p.Pairs x y (x.root t) (y.root u)) :
      PairsBinding p x y (.linked t) (.linked u)

/-- Bindings stay paired when the roots of what they link to do. -/
theorem Pairing.PairsBinding.imp {p p' : Pairing} {x y x' y' : TypeStore} {b b' : Binding}
    (h : p.PairsBinding x y b b')
    (hroots : ∀ {t u}, p.Pairs x y (x.root t) (y.root u) → p'.Pairs x' y' (x'.root t) (y'.root u)) :
    p'.PairsBinding x' y' b b' := by
  cases h with
  | free => exact .free
  | generic => exact .generic
  | linked h => exact .linked (hroots h)

/-- One more variable is known. -/
def Pairing.extend (p : Pairing) (i j : Nat) : Pairing where
  known k := p.known k ∨ k = i
  rename k := if k = i then j else p.rename k

section Extend

variable {p : Pairing} {i j k : Nat}

/-- The extended pairing pairs the two new variables. -/
theorem Pairing.extend_rename_self : (p.extend i j).rename i = j := if_pos rfl

/-- It pairs all others as before. -/
theorem Pairing.extend_rename_of_ne (h : k ≠ i) : (p.extend i j).rename k = p.rename k :=
  if_neg h

/-- Numbers that are new on both sides keep a pairing one-to-one. -/
theorem Pairing.extend_injective
    (hinj : ∀ {k l}, p.known k → p.known l → p.rename k = p.rename l → k = l)
    (hlt : ∀ {k}, p.known k → k < i ∧ p.rename k < j) {k l : Nat} (hk : (p.extend i j).known k)
    (hl : (p.extend i j).known l) (heq : (p.extend i j).rename k = (p.extend i j).rename l) :
    k = l := by
  have hne : ∀ {m}, p.known m → m ≠ i ∧ p.rename m ≠ j := fun hm =>
    ⟨Nat.ne_of_lt (hlt hm).1, Nat.ne_of_lt (hlt hm).2⟩
  rcases hk with hk | rfl <;> rcases hl with hl | rfl
  · rw [extend_rename_of_ne (hne hk).1, extend_rename_of_ne (hne hl).1] at heq
    exact hinj hk hl heq
  · rw [extend_rename_of_ne (hne hk).1, extend_rename_self] at heq
    exact absurd heq (hne hk).2
  · rw [extend_rename_self, extend_rename_of_ne (hne hl).1] at heq
    exact absurd heq.symm (hne hl).2
  · rfl

/-- What it knows is below the next variables on either side. -/
theorem Pairing.extend_lt (hlt : ∀ {k}, p.known k → k < i ∧ p.rename k < j)
    (hk : (p.extend i j).known k) : k < i + 1 ∧ (p.extend i j).rename k < j + 1 := by
  rcases hk with hk | rfl
  · have hboth := hlt hk
    rw [extend_rename_of_ne (Nat.ne_of_lt hboth.1)]
    omega
  · rw [extend_rename_self]
    omega

/-- New variables on both sides are written alike once they are known. -/
theorem Pairing.pairs_newVar {x y : TypeStore} (hx : x.Ordered) (hy : y.Ordered) :
    (p.extend x.variableCount y.variableCount).Pairs (newVar.run x).2 (newVar.run y).2
      (newVar.run x).1 (newVar.run y).1 := by
  obtain ⟨-, hadd⟩ := hx.newVar_run
  obtain ⟨-, hadd'⟩ := hy.newVar_run
  have hl : (newVar.run x).2.written (newVar.run x).1 = .atom (.var x.variableCount) :=
    WellFormed.written_of_atom hadd.node
  have hr : (newVar.run y).2.written (newVar.run y).1 = .atom (.var y.variableCount) :=
    WellFormed.written_of_atom hadd'.node
  refine ⟨hadd.has, hadd'.has, fun id hid => ?_, ?_⟩
  · rw [hl] at hid
    exact .inr (by simpa using hid)
  · simp only [hl, hr, Tree.rename_atom, Atom.rename, extend_rename_self]

end Extend

/-- Two stores that agree on the known variables and on all other atoms. -/
structure Twin where
  left : TypeStore
  right : TypeStore
  pairing : Pairing
  leftOrdered : left.Ordered
  rightOrdered : right.Ordered
  injective : ∀ {i j}, pairing.known i → pairing.known j →
    pairing.rename i = pairing.rename j → i = j
  known_lt : ∀ {i}, pairing.known i →
    i < left.variableCount ∧ pairing.rename i < right.variableCount
  binding : ∀ {i}, pairing.known i →
    pairing.PairsBinding left right (left.binding i) (right.binding (pairing.rename i))
  atom : ∀ {t a}, left.node t = .atom a → (∀ id, a ≠ .var id) → left.Has t →
    right.Has t ∧ right.node t = .atom a

namespace Twin

variable {w : Twin} {t u t' u' : TypeId}

/-- The types `t` of the left store and `u` of the right one are written alike. -/
def Pairs (w : Twin) (t u : TypeId) : Prop := w.pairing.Pairs w.left w.right t u

/-- Nodes that are alike: the same atom, a variable and its new name, or the
same former around types that are written alike. -/
inductive PairsNode (w : Twin) : Node → Node → Prop where
  | atom {a : Atom} (h : ∀ id, a ≠ .var id) : PairsNode w (.atom a) (.atom a)
  | var {id : Nat} (h : w.pairing.known id) :
      PairsNode w (.atom (.var id)) (.atom (.var (w.pairing.rename id)))
  | app {f : Former} {args parts : List TypeId} (h : List.Forall₂ w.Pairs args parts) :
      PairsNode w (.app f args) (.app f parts)

/-- Types that are written alike have nodes that are alike. -/
theorem Pairs.node (h : w.Pairs t u) : w.PairsNode (w.left.node t) (w.right.node u) := by
  have hl := w.leftOrdered.wellFormed
  have hr := w.rightOrdered.wellFormed
  have hwritten := h.written
  have hknown := h.known
  cases hn : w.left.node t with
  | atom a =>
      rw [WellFormed.written_of_atom hn] at hwritten hknown
      cases hm : w.right.node u with
      | app g parts =>
          rw [hr.written_of_app hm, Tree.rename_atom] at hwritten
          cases hwritten
      | atom b =>
          rw [WellFormed.written_of_atom hm, Tree.rename_atom] at hwritten
          obtain rfl := Tree.atom.inj hwritten
          by_cases hv : ∃ id, a = .var id
          · obtain ⟨id, rfl⟩ := hv
            exact .var (hknown id (by simp))
          · have hne : ∀ id, a ≠ .var id := fun id heq => hv ⟨id, heq⟩
            rw [Atom.rename_of_ne hne]
            exact .atom hne
  | app f args =>
      rw [hl.written_of_app hn] at hwritten hknown
      cases hm : w.right.node u with
      | atom b =>
          rw [WellFormed.written_of_atom hm, Tree.rename_app] at hwritten
          cases hwritten
      | app g parts =>
          rw [hr.written_of_app hm, Tree.rename_app, List.map_map] at hwritten
          obtain ⟨rfl, hargs⟩ := Tree.app.inj hwritten
          refine .app ?_
          have hlen : args.length = parts.length := by
            simpa using (congrArg List.length hargs).symm
          refine List.forall₂_iff_get.mpr ⟨hlen, fun i hi hj => ?_⟩
          have hmem : args.get ⟨i, hi⟩ ∈ args := List.get_mem _ _
          refine ⟨hl.has_arg (t := t) (by simp [hn, Node.args]),
            hr.has_arg (t := u) (by simp [hm, Node.args]), fun id hid => ?_, ?_⟩
          · exact hknown id (Tree.mem_atoms_app.mpr ⟨_, List.mem_map_of_mem hmem, hid⟩)
          · have hget := congrArg (fun l => l[i]?) hargs
            simpa [hi, hj] using hget

/-- An atom other than a variable has the same handle on both sides. -/
theorem Pairs.eq_of_atom (h : w.Pairs t u) {a : Atom} (hn : w.left.node t = .atom a)
    (hv : ∀ id, a ≠ .var id) : u = t := by
  obtain ⟨hhas, hnode⟩ := w.atom hn hv h.left
  have hpair := h.node
  rw [hn] at hpair
  generalize hm : w.right.node u = m at hpair
  cases hpair with
  | atom _ => exact w.rightOrdered.wellFormed.node_injective h.right hhas (hm.trans hnode.symm)
  | var _ => exact absurd rfl (hv _)

/-- Types on one side are equal exactly when those on the other are. -/
theorem Pairs.eq_iff (h : w.Pairs t u) (h' : w.Pairs t' u') : t = t' ↔ u = u' := by
  constructor
  · rintro rfl
    exact w.rightOrdered.wellFormed.written_injective h.right h'.right
      (h.written.trans h'.written.symm)
  · rintro rfl
    exact Pairing.Pairs.left_unique h h' w.leftOrdered.wellFormed w.injective

/-- Paired types have the same flag for errors. -/
theorem Pairs.hasError_eq (h : w.Pairs t u) :
    (w.right.summary u).hasError = (w.left.summary t).hasError :=
  Pairing.Pairs.fact_eq h w.leftOrdered.wellFormed w.rightOrdered.wellFormed
    Summary.Tracks.hasError (by simp [Atom.IsError])

/-- They have the same flag for parameters. -/
theorem Pairs.hasParam_eq (h : w.Pairs t u) :
    (w.right.summary u).hasParam = (w.left.summary t).hasParam :=
  Pairing.Pairs.fact_eq h w.leftOrdered.wellFormed w.rightOrdered.wellFormed
    Summary.Tracks.hasParam (by simp [Atom.IsParam])

/-- A link on one side is a link on the other. -/
theorem Pairs.link?_none (h : w.Pairs t u) (hl : w.left.link? t = none) :
    w.right.link? u = none := by
  rw [link?_eq_none] at hl ⊢
  intro id v hn hb
  have hpair := h.node
  rw [hn] at hpair
  generalize hm : w.left.node t = m at hpair
  cases hpair with
  | atom hne => exact hne _ rfl
  | @var i hknown =>
      have hbinding := w.binding hknown
      rw [hb] at hbinding
      generalize hleft : w.left.binding i = b at hbinding
      cases hbinding with
      | @linked v' => exact hl i v' hm hleft

/-- A linked type is paired with a linked one, and what the two are linked to has paired
roots. -/
theorem Pairs.link?_some (h : w.Pairs t u) {i : Nat} {v : TypeId}
    (hl : w.left.link? t = some (i, v)) :
    ∃ v', w.right.link? u = some (w.pairing.rename i, v') ∧
      w.Pairs (w.left.root v) (w.right.root v') := by
  obtain ⟨hn, hb⟩ := link?_eq_some.mp hl
  have hpair := h.node
  rw [hn] at hpair
  generalize hm : w.right.node u = m at hpair
  cases hpair with
  | atom hne => exact absurd rfl (hne i)
  | var hknown =>
      have hbinding := w.binding hknown
      rw [hb] at hbinding
      generalize hright : w.right.binding (w.pairing.rename i) = b at hbinding
      cases hbinding with
      | @linked _ v' hroots => exact ⟨v', link?_eq_some.mpr ⟨hm, hright⟩, hroots⟩

/-- Roots of types that are written alike are written alike. -/
theorem Pairs.root (h : w.Pairs t u) : w.Pairs (w.left.root t) (w.right.root u) := by
  cases hl : w.left.link? t with
  | none => rwa [root_of_no_link hl, root_of_no_link (h.link?_none hl)]
  | some p =>
      obtain ⟨i, v⟩ := p
      obtain ⟨v', hl', hroots⟩ := h.link?_some hl
      rwa [w.leftOrdered.root_of_link hl, w.rightOrdered.root_of_link hl']

/-- The meanings of `t` and `u` are alike, and in known variables. -/
def MeansAlike (w : Twin) (t u : TypeId) : Prop :=
  (∀ id, .var id ∈ (w.left.meaning t).atoms → w.pairing.known id) ∧
    w.right.meaning u = (w.left.meaning t).rename w.pairing.rename

/-- Types that mean alike one by one mean alike in order. -/
theorem meansAlike_all {args parts : List TypeId} (h : List.Forall₂ w.MeansAlike args parts) :
    (∀ a ∈ args, ∀ id, .var id ∈ (w.left.meaning a).atoms → w.pairing.known id) ∧
      parts.map w.right.meaning = args.map fun a => (w.left.meaning a).rename w.pairing.rename := by
  induction h with
  | nil => simp
  | cons hab _ ih => exact ⟨List.forall_mem_cons.mpr ⟨hab.1, ih.1⟩, by simp [hab.2, ih.2]⟩

/-- Types that are written alike mean what is alike. -/
theorem Pairs.meaning (h : w.Pairs t u) : w.MeansAlike t u := by
  induction t using w.leftOrdered.root_induction generalizing u with
  | step t ih =>
      have hpair := h.root.node
      generalize hn : w.left.node (w.left.root t) = n at hpair
      generalize hm : w.right.node (w.right.root u) = m at hpair
      unfold MeansAlike
      cases hpair with
      | @atom a hne =>
          rw [meaning_of_atom hn, meaning_of_atom hm, Tree.rename_atom, Atom.rename_of_ne hne]
          refine ⟨fun id hid => ?_, rfl⟩
          have heq : Atom.var id = a := by simpa using hid
          exact absurd heq.symm (hne id)
      | var hknown =>
          rw [meaning_of_atom hn, meaning_of_atom hm]
          exact ⟨fun id hid => by simp_all, by simp [Atom.rename]⟩
      | @app f args parts hargs =>
          have hall : List.Forall₂ w.MeansAlike args parts := by
            refine List.forall₂_iff_get.mpr ⟨hargs.length_eq, fun i hi hj => ?_⟩
            exact ih _ (by simp [hn, Node.args]) (hargs.get hi hj)
          obtain ⟨hknown, hmap⟩ := meansAlike_all hall
          rw [w.leftOrdered.meaning_of_app hn, w.rightOrdered.meaning_of_app hm, hmap]
          refine ⟨fun id hid => ?_, by simp⟩
          obtain ⟨_, htree, hid⟩ := Tree.mem_atoms_app.mp hid
          obtain ⟨a, ha, rfl⟩ := List.mem_map.mp htree
          exact hknown a ha id hid

/-- The occurs check finds a variable on one side exactly when it does on the
other. -/
theorem Pairs.occurs_eq (h : w.Pairs t u) {id : Nat} (hid : w.pairing.known id)
    (hl : ∀ v, w.left.binding id ≠ .linked v)
    (hr : ∀ v, w.right.binding (w.pairing.rename id) ≠ .linked v) :
    w.right.occurs (w.pairing.rename id) u = w.left.occurs id t := by
  obtain ⟨hknown, hmeaning⟩ := h.meaning
  rw [Bool.eq_iff_iff, w.leftOrdered.occurs_iff hl, w.rightOrdered.occurs_iff hr, hmeaning,
    Tree.var_mem_atoms_rename]
  constructor
  · rintro ⟨i, hi, heq⟩
    rwa [← w.injective (hknown i hi) hid heq]
  · intro hi
    exact ⟨id, hi, rfl⟩

/-- Both stores went on working, what was known still is, and what became known is
new on both sides. -/
structure Leads (w w' : Twin) : Prop where
  left : Works w.left w'.left
  right : Works w.right w'.right
  known : ∀ {i}, w.pairing.known i → w'.pairing.known i
  rename : ∀ {i}, w.pairing.known i → w'.pairing.rename i = w.pairing.rename i
  fresh : ∀ {i}, w'.pairing.known i → w.pairing.known i ∨
    w.left.variableCount ≤ i ∧ w.right.variableCount ≤ w'.pairing.rename i

theorem Leads.refl (w : Twin) : w.Leads w :=
  ⟨.refl w.leftOrdered, .refl w.rightOrdered, fun hi => hi, fun _ => rfl, .inl⟩

/-- Twins lead on one after the other. -/
theorem Leads.trans {w' w'' : Twin} (h : w.Leads w') (h' : w'.Leads w'') : w.Leads w'' where
  left := h.left.trans h'.left
  right := h.right.trans h'.right
  known hi := h'.known (h.known hi)
  rename hi := (h'.rename (h.known hi)).trans (h.rename hi)
  fresh {i} hi := by
    rcases h'.fresh hi with hi' | ⟨hl, hr⟩
    · rw [h'.rename hi']
      exact h.fresh hi'
    · exact .inr ⟨Nat.le_trans h.left.grows.count_le hl, Nat.le_trans h.right.grows.count_le hr⟩

/-- Types that were paired stay paired. -/
theorem Leads.pairs {w' : Twin} (h : w.Leads w') (hp : w.Pairs t u) : w'.Pairs t u :=
  hp.grow h.left h.right h.known h.rename

/-- Quiet work on either side leaves twins. -/
def quiet (w : Twin) {x y : TypeStore} (hx : Quiet w.left x) (hy : Quiet w.right y) : Twin where
  left := x
  right := y
  pairing := w.pairing
  leftOrdered := hx.finish
  rightOrdered := hy.finish
  injective := w.injective
  known_lt hi := ⟨Nat.lt_of_lt_of_le (w.known_lt hi).1 hx.grows.count_le,
    Nat.lt_of_lt_of_le (w.known_lt hi).2 hy.grows.count_le⟩
  binding {i} hi := by
    obtain ⟨hlt, hlt'⟩ := w.known_lt hi
    have hpair := w.binding hi
    generalize hb : w.left.binding i = b at hpair
    generalize hb' : w.right.binding (w.pairing.rename i) = b' at hpair
    cases hpair with
    | linked hroots =>
        -- a link may have been shortened on one side and not on the other
        obtain ⟨v, hv, hroot⟩ := hx.keeps.linked_root hx.start hx.finish hb
        obtain ⟨v', hv', hroot'⟩ := hy.keeps.linked_root hy.start hy.finish hb'
        rw [hv, hv']
        refine .linked ?_
        rw [hroot, hroot']
        exact hroots.grow hx.toWorks hy.toWorks (fun hi => hi) fun _ => rfl
    | free =>
        rw [hx.keeps.binding_of_not_linked hlt (by simp [hb]), hb,
          hy.keeps.binding_of_not_linked hlt' (by simp [hb']), hb']
        exact .free
    | generic =>
        rw [hx.keeps.binding_of_not_linked hlt (by simp [hb]), hb,
          hy.keeps.binding_of_not_linked hlt' (by simp [hb']), hb']
        exact .generic
  atom {t a} hn hv ht := by
    have hold : w.left.Has t := hx.has_of_atom ht hn hv
    obtain ⟨hhas, hnode⟩ := w.atom ((hx.node_eq hold).symm.trans hn) hv hold
    exact ⟨hy.has hhas, (hy.node_eq hhas).trans hnode⟩

/-- Quiet work on either side leads on. -/
theorem leads_quiet {x y : TypeStore} (hx : Quiet w.left x) (hy : Quiet w.right y) :
    w.Leads (w.quiet hx hy) :=
  ⟨hx.toWorks, hy.toWorks, fun hi => hi, fun _ => rfl, .inl⟩

/-- Opening a checkpoint on both sides leaves twins. -/
def opened (w : Twin) : Twin where
  left := w.left.opened
  right := w.right.opened
  pairing := w.pairing
  leftOrdered := w.leftOrdered.opened
  rightOrdered := w.rightOrdered.opened
  injective := w.injective
  known_lt := w.known_lt
  binding hi := (w.binding hi).imp fun h => by
    rw [opened_root, opened_root]
    exact h.congr rfl rfl
  atom := w.atom

/-- Types stay paired under a new checkpoint. -/
theorem Pairs.opened (h : w.Pairs t u) : w.opened.Pairs t u :=
  h.congr rfl rfl

/-- Twins from before a trial that know the variables made in it.  What was assigned
to known variables has been taken back, and those that were made are free. -/
def recalled (w : Twin) {w' : Twin} (h : w.opened.Leads w') {x y : TypeStore}
    (hx : Quiet w.left x) (hy : Quiet w.right y) (hcount : x.variableCount = w'.left.variableCount)
    (hcount' : y.variableCount = w'.right.variableCount) : Twin where
  left := x
  right := y
  pairing := w'.pairing
  leftOrdered := hx.finish
  rightOrdered := hy.finish
  injective := w'.injective
  known_lt hi := by
    rw [hcount, hcount']
    exact w'.known_lt hi
  binding {i} hi := by
    rcases h.fresh hi with hold | ⟨hl, hr⟩
    · rw [h.rename hold]
      refine ((w.quiet hx hy).binding hold).imp fun hroots => ?_
      exact hroots.grow (.refl hx.finish) (.refl hy.finish) h.known h.rename
    · obtain ⟨hlt, hlt'⟩ := w'.known_lt hi
      obtain ⟨name, hb⟩ := hx.free i hl (hcount ▸ hlt)
      obtain ⟨name', hb'⟩ := hy.free _ hr (hcount' ▸ hlt')
      rw [hb, hb']
      exact .free
  atom := (w.quiet hx hy).atom

/-- When both sides take their bindings back, the variables that were made in the meantime
stay paired. -/
theorem leads_recalled {w' : Twin} (h : w.opened.Leads w') {x y : TypeStore}
    (hx : Quiet w.left x) (hy : Quiet w.right y) (hcount : x.variableCount = w'.left.variableCount)
    (hcount' : y.variableCount = w'.right.variableCount) :
    w.Leads (w.recalled h hx hy hcount hcount') :=
  ⟨hx.toWorks, hy.toWorks, h.known, h.rename, h.fresh⟩

/-- Linking a variable on both sides to types that are written alike leaves
twins. -/
def link (w : Twin) {id : Nat} {t u : TypeId} (hid : w.pairing.known id) (h : w.Pairs t u)
    (hl : Linkable w.left id t) (hr : Linkable w.right (w.pairing.rename id) u) : Twin where
  left := w.left.assigned id (.linked t)
  right := w.right.assigned (w.pairing.rename id) (.linked u)
  pairing := w.pairing
  leftOrdered := w.leftOrdered.link hl
  rightOrdered := w.rightOrdered.link hr
  injective := w.injective
  known_lt hi := by
    rw [assigned_count, assigned_count]
    exact w.known_lt hi
  binding {i} hi := by
    have hsame : ∀ {a b}, w.Pairs a b → w.pairing.Pairs (w.left.assigned id (.linked t))
        (w.right.assigned (w.pairing.rename id) (.linked u)) a b := fun hab => hab.congr rfl rfl
    -- the ends of all chains of links still are alike
    have hroots : ∀ {a b}, w.Pairs (w.left.root a) (w.right.root b) →
        w.pairing.Pairs (w.left.assigned id (.linked t))
          (w.right.assigned (w.pairing.rename id) (.linked u))
          ((w.left.assigned id (.linked t)).root a)
          ((w.right.assigned (w.pairing.rename id) (.linked u)).root b) := by
      intro a b hab
      rw [w.leftOrdered.root_linked hl, w.rightOrdered.root_linked hr]
      have hnode := hab.node
      generalize hn : w.left.node (w.left.root a) = n at hnode
      generalize hm : w.right.node (w.right.root b) = m at hnode
      cases hnode with
      | atom hne => simpa [hne] using hsame hab
      | app _ => simpa using hsame hab
      | @var j hj =>
          by_cases heq : j = id
          · simpa [heq] using hsame h.root
          · have hne : w.pairing.rename j ≠ w.pairing.rename id :=
              fun hren => heq (w.injective hj hid hren)
            simpa [heq, hne] using hsame hab
    rw [hl.binding_eq, hr.binding_eq]
    by_cases heq : i = id
    · rw [if_pos heq, if_pos (by rw [heq])]
      exact .linked (hroots h.root)
    · rw [if_neg heq, if_neg fun hren => heq (w.injective hi hid hren)]
      exact (w.binding hi).imp hroots
  atom := w.atom

/-- A new variable on both sides becomes known. -/
def addVar (w : Twin) : Twin where
  left := (newVar.run w.left).2
  right := (newVar.run w.right).2
  pairing := w.pairing.extend w.left.variableCount w.right.variableCount
  leftOrdered := w.leftOrdered.newVar_run.1.finish
  rightOrdered := w.rightOrdered.newVar_run.1.finish
  injective := Pairing.extend_injective w.injective w.known_lt
  known_lt {i} hi := by
    obtain ⟨-, hadd⟩ := w.leftOrdered.newVar_run
    obtain ⟨-, hadd'⟩ := w.rightOrdered.newVar_run
    rw [hadd.count, hadd'.count]
    exact Pairing.extend_lt w.known_lt hi
  binding {i} hi := by
    obtain ⟨hq, hadd⟩ := w.leftOrdered.newVar_run
    obtain ⟨hq', hadd'⟩ := w.rightOrdered.newVar_run
    rcases hi with hi | rfl
    · rw [Pairing.extend_rename_of_ne (Nat.ne_of_lt (w.known_lt hi).1)]
      refine ((w.quiet hq hq').binding hi).imp fun hab => ?_
      refine hab.grow (.refl hq.finish) (.refl hq'.finish) .inl fun hj => ?_
      exact Pairing.extend_rename_of_ne (Nat.ne_of_lt (w.known_lt hj).1)
    · rw [Pairing.extend_rename_self, hadd.binding, hadd'.binding]
      exact .free
  atom := (w.quiet w.leftOrdered.newVar_run.1 w.rightOrdered.newVar_run.1).atom

/-- A new variable on both sides leads on. -/
theorem leads_addVar : w.Leads w.addVar where
  left := w.leftOrdered.newVar_run.1.toWorks
  right := w.rightOrdered.newVar_run.1.toWorks
  known := .inl
  rename hi := Pairing.extend_rename_of_ne (Nat.ne_of_lt (w.known_lt hi).1)
  fresh {i} hi := by
    rcases hi with hi | rfl
    · exact .inl hi
    · exact .inr ⟨Nat.le_refl _, Nat.le_of_eq Pairing.extend_rename_self.symm⟩

/-- The two new variables are paired. -/
theorem pairs_addVar : w.addVar.Pairs (newVar.run w.left).1 (newVar.run w.right).1 :=
  Pairing.pairs_newVar w.leftOrdered w.rightOrdered

/-- A store and what quiet work has made of it are twins; all variables of
before are known. -/
def start {s x y : TypeStore} (hx : Quiet s x) (hy : Quiet s y) : Twin :=
  let same : Twin :=
    { left := s
      right := s
      pairing := { known := (· < s.variableCount), rename := fun id => id }
      leftOrdered := hx.start
      rightOrdered := hx.start
      injective := fun _ _ heq => heq
      known_lt := fun hi => ⟨hi, hi⟩
      binding := fun {i} _ => by
        cases hb : s.binding i with
        | free j name => exact .free
        | generic name => exact .generic
        | linked t =>
            have hhas := hx.start.has_root (hx.start.wellFormed.linked_has hb)
            exact .linked ⟨hhas, hhas, fun id =>
              hx.start.wellFormed.var_lt_of_written, Tree.rename_id.symm⟩
      atom := fun hn _ ht => ⟨ht, hn⟩ }
  same.quiet hx hy

/-- Two quiet descendants of one store are twins, and types that read the same tree in
them are paired. -/
theorem pairs_start {s x y : TypeStore} (hx : Quiet s x) (hy : Quiet s y) {tree : Tree}
    (ht : x.Reads tree t) (hu : y.Reads tree u)
    (hv : ∀ id, .var id ∈ tree.atoms → id < s.variableCount) : (start hx hy).Pairs t u := by
  refine ⟨ht.1, hu.1, ?_, ?_⟩
  · intro id hid
    exact hv id (ht.2 ▸ hid)
  · exact hu.2.trans (ht.2.symm.trans Tree.rename_id.symm)

/-- A type of a store is a pair with itself after quiet work on both sides. -/
theorem pairs_self {s x y : TypeStore} (hx : Quiet s x) (hy : Quiet s y) (ht : s.Has t) :
    (start hx hy).Pairs t t :=
  pairs_start hx hy (hx.reads ⟨ht, rfl⟩) (hy.reads ⟨ht, rfl⟩) fun _ hid =>
    hx.start.wellFormed.var_lt_of_written hid

end Twin

end TypeStore

end DotCall
