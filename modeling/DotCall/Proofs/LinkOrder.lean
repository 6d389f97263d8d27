import DotCall.Proofs.TrailRestore
import Mathlib.Data.Finset.Card
import Mathlib.Logic.Relation
import Mathlib.Order.RelClasses

/-!
# Links that do not run in a circle

From a type one can go down to its arguments and, from a linked variable, on to
the type that it is linked to.  Where this always comes to an end, every type
has a root and means a finite tree.

The way down passes no handle twice, so the number of types bounds its length
(`exists_rank`).  This is what makes the bounded loops of the store complete:
following links, reading a meaning and looking for a variable all reach the
bottom before their bound does.
-/

namespace DotCall.TypeStore

open Relation

/-- One step down from `t`: to an argument, or along the link of a variable. -/
def Descends (s : TypeStore) (c t : TypeId) : Prop :=
  c ∈ (s.node t).args ∨ ∃ id, s.link? t = some (id, c)

/-- Every way down comes to an end. -/
def Acyclic (s : TypeStore) : Prop := WellFounded s.Descends

/-- A well-formed store whose links do not run in a circle. -/
structure Ordered (s : TypeStore) : Prop where
  wellFormed : s.WellFormed
  acyclic : s.Acyclic

/-- A type is linked when it is a variable whose binding says so. -/
theorem link?_eq_some {s : TypeStore} {t u : TypeId} {id : Nat} :
    s.link? t = some (id, u) ↔ s.node t = .atom (.var id) ∧ s.binding id = .linked u := by
  unfold link?
  split
  · next id' hn =>
      split
      · next target hb => rw [hn]; grind
      · next hb => rw [hn]; grind
  · next hn => grind

/-- Any other type is not linked. -/
theorem link?_eq_none {s : TypeStore} {t : TypeId} :
    s.link? t = none ↔ ∀ id u, s.node t = .atom (.var id) → s.binding id ≠ .linked u := by
  rw [Option.eq_none_iff_forall_ne_some]
  constructor
  · intro h id u hn hb
    exact h (id, u) (link?_eq_some.mpr ⟨hn, hb⟩)
  · rintro h ⟨id, u⟩ hsome
    obtain ⟨hn, hb⟩ := link?_eq_some.mp hsome
    exact h id u hn hb

/-- A link depends on the node of the handle and the binding of its variable. -/
theorem link?_congr {s s' : TypeStore} {t : TypeId} (hn : s'.node t = s.node t)
    (hb : ∀ id, s.node t = .atom (.var id) → s'.binding id = s.binding id) :
    s'.link? t = s.link? t := by
  unfold link?
  rw [hn]
  cases h : s.node t with
  | app f args => rfl
  | atom a =>
      cases a with
      | var id => simp only [hb id h]
      | _ => rfl

/-- A compound type is not linked. -/
theorem link?_of_app {s : TypeStore} {t : TypeId} {f : Former} {args : List TypeId}
    (h : s.node t = .app f args) : s.link? t = none := by
  simp [link?, h]

/-- Only from a type of the store there is a step down. -/
theorem has_of_descends {s : TypeStore} {c t : TypeId} (hc : s.Descends c t) : s.Has t := by
  apply has_of_node_ne
  intro slot hslot
  rcases hc with hc | ⟨id, hc⟩
  · simp [hslot, Node.args] at hc
  · simp [(link?_eq_some.mp hc).1] at hslot

/-- A step down stays in the store. -/
theorem WellFormed.has_of_descends {s : TypeStore} (h : s.WellFormed) {c t : TypeId}
    (hc : s.Descends c t) : s.Has c := by
  rcases hc with hc | ⟨id, hc⟩
  · exact h.has_arg hc
  · exact h.linked_has (link?_eq_some.mp hc).2

namespace Ordered

variable {s : TypeStore} {t u c : TypeId} {id : Nat}

/-- **The way down is short.**  Every type has a rank, at most the number of
types, which each step down lowers. -/
theorem exists_rank (h : s.Ordered) :
    ∃ rank : TypeId → Nat, (∀ c t, s.Descends c t → rank c < rank t) ∧
      (∀ t, rank t ≤ s.size) ∧ ∀ t, s.Has t → 0 < rank t := by
  classical
  -- the rank counts the handles that can be reached
  let reached : TypeId → Finset Nat := fun t =>
    (Finset.range s.size).filter fun i => ReflTransGen s.Descends ⟨i⟩ t
  have hself : ∀ t, s.Has t → t.index ∈ reached t := by
    intro t ht
    simp only [reached, Finset.mem_filter, Finset.mem_range]
    exact ⟨ht, .refl⟩
  refine ⟨fun t => (reached t).card, ?_, ?_, ?_⟩
  · intro c t hc
    have ht : s.Has t := has_of_descends hc
    have hnot : t.index ∉ reached c := by
      simp only [reached, Finset.mem_filter, not_and]
      intro _ hback
      have hcycle : TransGen s.Descends t t := TransGen.tail' hback hc
      exact h.acyclic.transGen.asymmetric t t hcycle hcycle
    apply Finset.card_lt_card
    refine Finset.ssubset_iff_subset_ne.mpr ⟨?_, fun heq => hnot (heq ▸ hself t ht)⟩
    intro i hi
    simp only [reached, Finset.mem_filter] at hi ⊢
    exact ⟨hi.1, hi.2.tail hc⟩
  · intro t
    have hle := Finset.card_filter_le (Finset.range s.size) fun i => ReflTransGen s.Descends ⟨i⟩ t
    simpa using hle
  · exact fun t ht => Finset.card_pos.mpr ⟨t.index, hself t ht⟩

/-- Following links reaches their end once the bound is as large as the rank. -/
theorem follow_of_rank {rank : TypeId → Nat} (hrank : ∀ c t, s.Descends c t → rank c < rank t)
    {n : Nat} (hn : rank t ≤ n) :
    s.link? (s.follow n t) = none ∧ ∀ m, n ≤ m → s.follow m t = s.follow n t := by
  induction n generalizing t with
  | zero =>
      cases hl : s.link? t with
      | none =>
          refine ⟨by simpa [follow] using hl, fun m _ => ?_⟩
          cases m with
          | zero => rfl
          | succ m => simp [follow, hl]
      | some p =>
          have hlt := hrank p.2 t (.inr ⟨p.1, hl⟩)
          omega
  | succ n ih =>
      cases hl : s.link? t with
      | none =>
          refine ⟨by simp [follow, hl], fun m hm => ?_⟩
          obtain ⟨m, rfl⟩ : ∃ j, m = j + 1 := ⟨m - 1, by omega⟩
          simp [follow, hl]
      | some p =>
          have hlt := hrank p.2 t (.inr ⟨p.1, hl⟩)
          obtain ⟨hnone, hstable⟩ := ih (t := p.2) (by omega)
          refine ⟨by simpa [follow, hl] using hnone, fun m hm => ?_⟩
          obtain ⟨m, rfl⟩ : ∃ j, m = j + 1 := ⟨m - 1, by omega⟩
          simpa [follow, hl] using hstable m (by omega)

/-- The root of a type is not a linked variable. -/
theorem link?_root (h : s.Ordered) (t : TypeId) : s.link? (s.root t) = none := by
  obtain ⟨rank, hrank, hle, -⟩ := h.exists_rank
  exact (follow_of_rank hrank (hle t)).1

/-- A linked variable has the root of what it is linked to. -/
theorem root_of_link (h : s.Ordered) (hl : s.link? t = some (id, u)) : s.root t = s.root u := by
  obtain ⟨rank, hrank, hle, -⟩ := h.exists_rank
  have hlt : rank u < rank t := hrank u t (.inr ⟨id, hl⟩)
  have hstable := (follow_of_rank hrank (hle u)).2 (s.size + 1) (Nat.le_succ _)
  have hstep : s.follow (s.size + 1) t = s.follow s.size u := by simp [follow, hl]
  have hmore := (follow_of_rank hrank (hle t)).2 (s.size + 1) (Nat.le_succ _)
  exact hmore.symm.trans hstep

end Ordered

/-- Where there is no link, following links any number of times goes nowhere. -/
theorem follow_of_no_link {s : TypeStore} {t : TypeId} (hl : s.link? t = none) (n : Nat) :
    s.follow n t = t := by
  cases n with
  | zero => rfl
  | succ n => simp [follow, hl]

/-- A type without a link at the top is its own root. -/
theorem root_of_no_link {s : TypeStore} {t : TypeId} (hl : s.link? t = none) : s.root t = t :=
  follow_of_no_link hl s.size

/-- Following links in two goes is following them in one. -/
theorem follow_add (s : TypeStore) (n m : Nat) (t : TypeId) :
    s.follow (n + m) t = s.follow m (s.follow n t) := by
  induction n generalizing t with
  | zero => rw [Nat.zero_add, follow]
  | succ n ih =>
      cases hl : s.link? t with
      | none => rw [follow_of_no_link hl, follow_of_no_link hl, follow_of_no_link hl]
      | some p =>
          rw [Nat.succ_add]
          simp only [follow, hl]
          exact ih p.2

/-- Links lead from a type of the store to such types only. -/
theorem WellFormed.has_follow {s : TypeStore} (h : s.WellFormed) (n : Nat) {t : TypeId}
    (ht : s.Has t) : s.Has (s.follow n t) := by
  induction n generalizing t with
  | zero => exact ht
  | succ n ih =>
      rw [follow]
      split
      · next id target hl => exact ih (h.linked_has (link?_eq_some.mp hl).2)
      · exact ht

namespace Ordered

variable {s : TypeStore} {t u c : TypeId} {id : Nat}

/-- A root is its own root. -/
theorem root_root (h : s.Ordered) (t : TypeId) : s.root (s.root t) = s.root t :=
  root_of_no_link (h.link?_root t)

/-- Prove a property of all types by following links to the root. -/
theorem link_induction (h : s.Ordered) {motive : TypeId → Prop}
    (here : ∀ t, s.link? t = none → motive t)
    (link : ∀ t id u, s.link? t = some (id, u) → motive u → motive t) (t : TypeId) : motive t := by
  induction t using h.acyclic.induction with
  | _ t ih =>
      cases hl : s.link? t with
      | none => exact here t hl
      | some p => exact link t p.1 p.2 hl (ih p.2 (.inr ⟨p.1, hl⟩))

/-- The root is reached by steps down. -/
theorem descends_root (h : s.Ordered) (t : TypeId) : ReflTransGen s.Descends (s.root t) t := by
  induction t using h.link_induction with
  | here t hl => rw [root_of_no_link hl]
  | link t id u hl ih =>
      rw [h.root_of_link hl]
      exact ih.tail (.inr ⟨id, hl⟩)

/-- The root of a type is in the store. -/
theorem has_root (h : s.Ordered) (ht : s.Has t) : s.Has (s.root t) := by
  induction t using h.link_induction with
  | here t hl => rwa [root_of_no_link hl]
  | link t id u hl ih =>
      rw [h.root_of_link hl]
      exact ih (h.wellFormed.linked_has (link?_eq_some.mp hl).2)

/-- Prove a property of all types from the arguments of the root to the type. -/
theorem root_induction (h : s.Ordered) {motive : TypeId → Prop}
    (step : ∀ t, (∀ a ∈ (s.node (s.root t)).args, motive a) → motive t) (t : TypeId) :
    motive t := by
  induction t using h.acyclic.transGen.induction with
  | _ t ih =>
      refine step t fun a ha => ih a ?_
      have hfirst : TransGen s.Descends a (s.root t) := .single (.inl ha)
      rcases reflTransGen_iff_eq_or_transGen.mp (h.descends_root t) with heq | hrest
      · rwa [← heq] at hfirst
      · exact hfirst.trans hrest

/-- Any depth above the rank of a type is enough to read its tree, since the rank falls at
each argument and at each link. -/
theorem treeWithin_of_rank (h : s.Ordered) {rank : TypeId → Nat}
    (hrank : ∀ c t, s.Descends c t → rank c < rank t) {n m : Nat} (hn : rank t < n)
    (hm : rank t < m) : s.treeWithin s.root n t = s.treeWithin s.root m t := by
  have hroot : ∀ t, rank (s.root t) ≤ rank t := by
    intro t
    induction t using h.link_induction with
    | here t hl => rw [root_of_no_link hl]
    | link t id u hl ih =>
        rw [h.root_of_link hl]
        exact Nat.le_trans ih (Nat.le_of_lt (hrank u t (.inr ⟨id, hl⟩)))
  induction n generalizing t m with
  | zero => omega
  | succ n ih =>
      obtain ⟨m, rfl⟩ : ∃ j, m = j + 1 := ⟨m - 1, by omega⟩
      simp only [treeWithin]
      cases hnode : s.node (s.root t) with
      | atom a => rfl
      | app f args =>
          simp only [Tree.app.injEq, true_and]
          refine List.map_congr_left fun a ha => ?_
          have hlt := hrank a (s.root t) (.inl (by simpa [hnode, Node.args] using ha))
          have hle := hroot t
          exact ih (by omega) (by omega)

/-- The meaning of a type whose root is compound is its former around what its arguments
mean. -/
theorem meaning_of_app (h : s.Ordered) {f : Former} {args : List TypeId}
    (hn : s.node (s.root t) = .app f args) : s.meaning t = .app f (args.map s.meaning) := by
  obtain ⟨rank, hrank, hle, -⟩ := h.exists_rank
  have hunfold : s.meaning t = s.treeWithin s.root (s.size + 2) t :=
    h.treeWithin_of_rank hrank (Nat.lt_succ_of_le (hle t))
      (Nat.lt_succ_of_le (Nat.le_succ_of_le (hle t)))
  rw [hunfold, treeWithin, hn]
  rfl

end Ordered

/-- A type whose root is an atom means that atom. -/
theorem meaning_of_atom {s : TypeStore} {t : TypeId} {a : Atom}
    (hn : s.node (s.root t) = .atom a) : s.meaning t = .atom a := by
  simp [meaning, treeWithin, hn]

namespace Ordered

variable {s : TypeStore} {t u c : TypeId} {id : Nat}

/-- A type means what its root means. -/
theorem meaning_root (h : s.Ordered) (t : TypeId) : s.meaning (s.root t) = s.meaning t := by
  cases hn : s.node (s.root t) with
  | atom a => rw [meaning_of_atom hn, meaning_of_atom (by rwa [h.root_root])]
  | app f args => rw [h.meaning_of_app hn, h.meaning_of_app (by rwa [h.root_root])]

/-- A linked variable means what it is linked to. -/
theorem meaning_of_link (h : s.Ordered) (hl : s.link? t = some (id, u)) :
    s.meaning t = s.meaning u := by
  rw [← h.meaning_root t, h.root_of_link hl, h.meaning_root]

/-- The number of types bounds the height of every meaning. -/
theorem height_meaning_le (h : s.Ordered) (t : TypeId) : (s.meaning t).height ≤ s.size := by
  obtain ⟨rank, hrank, hle, hpos⟩ := h.exists_rank
  suffices hheight : (s.meaning t).height ≤ rank t from Nat.le_trans hheight (hle t)
  induction t using h.acyclic.induction with
  | _ t ih =>
      cases hl : s.link? t with
      | some p =>
          rw [h.meaning_of_link hl]
          have hstep : s.Descends p.2 t := .inr ⟨p.1, hl⟩
          exact Nat.le_trans (ih p.2 hstep) (Nat.le_of_lt (hrank p.2 t hstep))
      | none =>
          have hroot := root_of_no_link hl
          cases hn : s.node t with
          | atom a => simp [meaning_of_atom (hroot.symm ▸ hn)]
          | app f args =>
              rw [h.meaning_of_app (by rwa [hroot])]
              -- every argument has a smaller rank, and so does not rise above it
              have hargs : ∀ a ∈ args, s.Descends a t := fun a ha =>
                .inl (by simpa [hn, Node.args] using ha)
              have hbound : ∀ b ∈ args.map s.meaning, b.height ≤ rank t - 1 := by
                intro b hb
                obtain ⟨a, ha, rfl⟩ := List.mem_map.mp hb
                have hlt := hrank a t (hargs a ha)
                have hle' := ih a (hargs a ha)
                omega
              have htop := Tree.height_app_le (f := f) hbound
              have hone := hpos t (has_of_node_ne (by simp [hn]))
              omega

/-- The variables of a meaning are not linked. -/
theorem not_linked_of_mem_meaning (h : s.Ordered) (hid : .var id ∈ (s.meaning t).atoms) :
    ∀ u, s.binding id ≠ .linked u := by
  induction t using h.root_induction with
  | step t ih =>
      cases hn : s.node (s.root t) with
      | atom a =>
          rw [meaning_of_atom hn] at hid
          obtain rfl : Atom.var id = a := by simpa using hid
          exact fun u => link?_eq_none.mp (h.link?_root t) id u hn
      | app f args =>
          rw [h.meaning_of_app hn] at hid
          obtain ⟨_, hmem, hid⟩ := Tree.mem_atoms_app.mp hid
          obtain ⟨a, ha, rfl⟩ := List.mem_map.mp hmem
          exact ih a (by simpa [hn, Node.args] using ha) hid

end Ordered

end DotCall.TypeStore
