import DotCall.Proofs.TreeAssignment
import Mathlib.Data.List.Basic
import Mathlib.Data.List.Induction

/-!
# Trees whose variables are taken over

When a tree is taken over where there are some variables already, a variable is kept if
its number is known there and becomes the next new one if not.  Every new variable makes
one more number known, so what a variable becomes depends on how many were made before
it: one variable may come out as two, and two as one.

The tree comes out the same up to an injective renumbering exactly when no generic
parameter is strange and the strange variables come in order: the `j`-th different one
has at least the number `j` from the first unknown one on, and just this number when it
occurs again (`Tree.renamed_adopt_iff`).  The proof goes through the atoms from left to
right, one more at a time (`adoptAtoms_eq_iff`).
-/

namespace DotCall

/-- The place of a number among the different ones of a list, in order of first
occurrence. -/
def firstPlace (ids : List Nat) (id : Nat) : Nat := ids.eraseDups.idxOf id

section FirstPlace

variable {ids : List Nat} {id i : Nat}

/-- A number at the end of a list is only kept when it has not come before. -/
theorem eraseDups_concat :
    (ids ++ [id]).eraseDups = if id ∈ ids then ids.eraseDups else ids.eraseDups ++ [id] := by
  rw [List.eraseDups_append]
  by_cases h : id ∈ ids <;> simp [List.removeAll, List.eraseDups_cons, h]

/-- A number of the list has its place among the different ones. -/
theorem firstPlace_lt (h : id ∈ ids) : firstPlace ids id < ids.eraseDups.length :=
  List.idxOf_lt_length_of_mem (List.mem_eraseDups.mpr h)

/-- Different numbers have different places. -/
theorem firstPlace_inj (h : id ∈ ids) : firstPlace ids id = firstPlace ids i ↔ id = i :=
  List.idxOf_inj (List.mem_eraseDups.mpr h)

/-- What comes later does not change the place of a number that was there. -/
theorem firstPlace_concat_of_mem (h : id ∈ ids) :
    firstPlace (ids ++ [i]) id = firstPlace ids id := by
  unfold firstPlace
  rw [eraseDups_concat]
  split
  · rfl
  · exact List.idxOf_append_of_mem (List.mem_eraseDups.mpr h)

/-- A number that is new comes after all those before it. -/
theorem firstPlace_concat_self (h : id ∉ ids) :
    firstPlace (ids ++ [id]) id = ids.eraseDups.length := by
  unfold firstPlace
  rw [eraseDups_concat, if_neg h, List.idxOf_append_of_notMem (by simpa using h)]
  simp

/-- Every place is taken. -/
theorem exists_firstPlace (hi : i < ids.eraseDups.length) : ∃ id ∈ ids, firstPlace ids id = i := by
  induction ids using List.reverseRecOn with
  | nil => simp at hi
  | append_singleton ids last ih =>
      rw [eraseDups_concat] at hi
      have hold : i < ids.eraseDups.length →
          ∃ id ∈ ids ++ [last], firstPlace (ids ++ [last]) id = i := fun hi => by
        obtain ⟨id, hid, hplace⟩ := ih hi
        exact ⟨id, by simp [hid], (firstPlace_concat_of_mem hid).trans hplace⟩
      split at hi
      · exact hold hi
      · next hnew =>
          rw [List.length_append, List.length_singleton] at hi
          rcases Nat.lt_succ_iff_lt_or_eq.mp hi with hi | rfl
          · exact hold hi
          · exact ⟨last, by simp, firstPlace_concat_self hnew⟩

end FirstPlace

/-- Counted from `n` on, no number comes before its place, and one that occurs again is
just the number of its place. -/
def InOrder (n : Nat) (ids : List Nat) : Prop :=
  ∀ id ∈ ids, n + firstPlace ids id ≤ id ∧ (1 < ids.count id → id = n + firstPlace ids id)

instance (n : Nat) (ids : List Nat) : Decidable (InOrder n ids) :=
  inferInstanceAs (Decidable (∀ id ∈ ids, _))

section InOrder

variable {n id : Nat} {ids : List Nat}

/-- A number that has come before keeps the order when it equals the one it was given. -/
theorem inOrder_concat_of_mem (h : id ∈ ids) :
    InOrder n (ids ++ [id]) ↔ InOrder n ids ∧ id = n + firstPlace ids id := by
  have hagain : 1 < (ids ++ [id]).count id := by
    have := List.count_pos_iff.mpr h
    simp
    omega
  constructor
  · intro hall
    have hself := (hall id (by simp)).2 hagain
    rw [firstPlace_concat_of_mem h] at hself
    refine ⟨fun i hi => ?_, hself⟩
    obtain ⟨hle, heq⟩ := hall i (by simp [hi])
    rw [firstPlace_concat_of_mem hi] at hle heq
    refine ⟨hle, fun hcount => heq ?_⟩
    rw [List.count_append]
    omega
  · rintro ⟨hall, hself⟩ i hi
    have hmem : i ∈ ids := by
      rcases List.mem_append.mp hi with hi | hi
      · exact hi
      · exact List.mem_singleton.mp hi ▸ h
    rw [firstPlace_concat_of_mem hmem]
    by_cases heq : i = id
    · subst heq
      exact ⟨Nat.le_of_eq hself.symm, fun _ => hself⟩
    · obtain ⟨hle, hrepeat⟩ := hall i hmem
      refine ⟨hle, fun hcount => hrepeat ?_⟩
      simpa [List.count_append, Ne.symm heq] using hcount

/-- A number that comes for the first time keeps the order when it is not below those
given out up to then, so that it is not taken for one of them. -/
theorem inOrder_concat_of_not_mem (h : id ∉ ids) :
    InOrder n (ids ++ [id]) ↔ InOrder n ids ∧ n + ids.eraseDups.length ≤ id := by
  have honce : (ids ++ [id]).count id = 1 := by simp [List.count_eq_zero_of_not_mem h]
  have hcount : ∀ i ∈ ids, (ids ++ [id]).count i = ids.count i := fun i hi => by
    have hne : id ≠ i := fun heq => h (heq ▸ hi)
    simp [List.count_append, hne]
  constructor
  · intro hall
    refine ⟨fun i hi => ?_, ?_⟩
    · have := hall i (by simp [hi])
      rwa [firstPlace_concat_of_mem hi, hcount i hi] at this
    · have := (hall id (by simp)).1
      rwa [firstPlace_concat_self h] at this
  · rintro ⟨hall, hle⟩ i hi
    rcases List.mem_append.mp hi with hi | hi
    · rw [firstPlace_concat_of_mem hi, hcount i hi]
      exact hall i hi
    · obtain rfl := List.mem_singleton.mp hi
      rw [firstPlace_concat_self h, honce]
      exact ⟨hle, fun hbad => absurd hbad (Nat.lt_irrefl _)⟩

end InOrder

namespace Atom

/-- The number of a variable of either sort. -/
def number? : Atom → Option Nat
  | .var id | .generic id => some id
  | _ => none

/-- The atom with the number of its variable replaced. -/
def renumber (ρ : Nat → Nat) : Atom → Atom
  | .var id => .var (ρ id)
  | .generic id => .generic (ρ id)
  | a => a

/-- What becomes of an atom where there are `count` variables, and how many there are
then. -/
def adopt (a : Atom) (count : Nat) : Atom × Nat :=
  match a.number? with
  | some id => if id < count then (a, count) else (.var count, count + 1)
  | none => (a, count)

/-- An atom is a variable of either sort from `n` on, or it is not. -/
theorem known_or_strange (a : Atom) (n : Nat) :
    (∀ id, a.number? = some id → id < n) ∨ ∃ id, (a = .var id ∨ a = .generic id) ∧ n ≤ id := by
  cases a with
  | var id | generic id =>
      rcases Nat.lt_or_ge id n with h | h
      · exact .inl (by simpa [number?] using h)
      · exact .inr ⟨id, by simp, h⟩
  | _ => exact .inl (by simp [number?])

end Atom

/-- The atoms in turn. -/
def adoptAtoms : List Atom → Nat → List Atom × Nat
  | [], count => ([], count)
  | a :: rest, count =>
    let first := a.adopt count
    let others := adoptAtoms rest first.2
    (first.1 :: others.1, others.2)

/-- The numbers of the variables of either sort, from left to right. -/
def numbers (atoms : List Atom) : List Nat := atoms.filterMap Atom.number?

/-- The numbers that a store with `n` variables does not have. -/
def strangers (n : Nat) (atoms : List Atom) : List Nat := (numbers atoms).filter (n ≤ ·)

/-- A renumbering that keeps the numbers below `n`, gives the others numbers from `n` on,
and tells the numbers of the list apart. -/
structure Renumbering (n : Nat) (ids : List Nat) (ρ : Nat → Nat) : Prop where
  known : ∀ id < n, ρ id = id
  strange : ∀ id, n ≤ id → n ≤ ρ id
  injective : ∀ i ∈ ids, ∀ j ∈ ids, ρ i = ρ j → i = j

section AdoptAtoms

variable {n count id : Nat} {a : Atom} {atoms rest : List Atom} {ρ : Nat → Nat}

/-- Adoption goes through a row of atoms from left to right, so the second part of a row
starts with the count that the first has left. -/
theorem adoptAtoms_append :
    adoptAtoms (atoms ++ rest) n =
      let r := adoptAtoms atoms n
      let r' := adoptAtoms rest r.2
      (r.1 ++ r'.1, r'.2) := by
  induction atoms generalizing n with
  | nil => rfl
  | cons a atoms ih => simp only [List.cons_append, adoptAtoms, ih]

/-- Adoption gives an atom for each atom. -/
theorem adoptAtoms_length : (adoptAtoms atoms n).1.length = atoms.length := by
  induction atoms generalizing n with
  | nil => rfl
  | cons a atoms ih => simp [adoptAtoms, ih]

/-- The count never falls. -/
theorem le_adoptAtoms (atoms : List Atom) : n ≤ (adoptAtoms atoms n).2 := by
  induction atoms generalizing n with
  | nil => exact Nat.le_refl n
  | cons a atoms ih =>
      refine Nat.le_trans ?_ ih
      unfold Atom.adopt
      split
      · split
        · exact Nat.le_refl n
        · exact Nat.le_succ n
      · exact Nat.le_refl n

/-- One atom more. -/
theorem adoptAtoms_concat_eq_iff :
    (adoptAtoms (atoms ++ [a]) n).1 = (atoms ++ [a]).map (Atom.renumber ρ) ↔
      (adoptAtoms atoms n).1 = atoms.map (Atom.renumber ρ) ∧
        (a.adopt (adoptAtoms atoms n).2).1 = a.renumber ρ := by
  rw [adoptAtoms_append, List.map_append]
  constructor
  · intro h
    obtain ⟨hfirst, hlast⟩ := List.append_inj h (by simp [adoptAtoms_length])
    exact ⟨hfirst, List.singleton_inj.mp hlast⟩
  · rintro ⟨hfirst, hlast⟩
    simp [adoptAtoms, hfirst, hlast]

/-- A stranger is a variable of either sort that the receiving store does not know. -/
theorem mem_strangers : id ∈ strangers n atoms ↔
    n ≤ id ∧ (.var id ∈ atoms ∨ .generic id ∈ atoms) := by
  have hnumber : ∀ b : Atom, b.number? = some id ↔ b = .var id ∨ b = .generic id := by
    intro b
    cases b <;> simp [Atom.number?]
  simp only [strangers, numbers, List.mem_filter, List.mem_filterMap, hnumber, decide_eq_true_eq]
  grind

/-- An atom that is known adds no stranger. -/
theorem strangers_concat_of_known (atoms : List Atom) (h : ∀ id, a.number? = some id → id < n) :
    strangers n (atoms ++ [a]) = strangers n atoms := by
  cases ha : a.number? with
  | none => simp [strangers, numbers, ha]
  | some id => simp [strangers, numbers, ha, h id ha]

/-- A variable that is not known is the last of the strangers. -/
theorem strangers_concat (atoms : List Atom) (h : a.number? = some id) (hid : n ≤ id) :
    strangers n (atoms ++ [a]) = strangers n atoms ++ [id] := by
  simp [strangers, numbers, h, hid]

end AdoptAtoms

/-- No generic parameter is strange, the strange variables come in order, and each is
renumbered by its place. -/
structure Orderly (n : Nat) (ρ : Nat → Nat) (atoms : List Atom) : Prop where
  generic : ∀ id, .generic id ∈ atoms → id < n
  inOrder : InOrder n (strangers n atoms)
  place : ∀ id ∈ strangers n atoms, ρ id = n + firstPlace (strangers n atoms) id

namespace Orderly

variable {n id : Nat} {ρ : Nat → Nat} {atoms : List Atom} {a : Atom}

/-- A known atom at the end changes nothing about the order. -/
theorem concat_of_known (h : ∀ id, a.number? = some id → id < n) :
    Orderly n ρ (atoms ++ [a]) ↔ Orderly n ρ atoms := by
  have hsame := strangers_concat_of_known atoms h
  constructor
  · rintro ⟨hgeneric, hinOrder, hplace⟩
    rw [hsame] at hinOrder hplace
    exact ⟨fun id hid => hgeneric id (by simp [hid]), hinOrder, hplace⟩
  · rintro ⟨hgeneric, hinOrder, hplace⟩
    refine ⟨fun id hid => ?_, hsame ▸ hinOrder, hsame ▸ hplace⟩
    rcases List.mem_append.mp hid with hid | hid
    · exact hgeneric id hid
    · exact h id (by simp [← List.mem_singleton.mp hid, Atom.number?])

/-- An inference variable at the end adds no generic parameter. -/
theorem generic_concat :
    (∀ i, .generic i ∈ atoms ++ [.var id] → i < n) ↔ ∀ i, .generic i ∈ atoms → i < n := by
  simp

/-- A stranger that has come before is carried on in order when its own number is the one
it was given. -/
theorem concat_again (hid : id ∈ strangers n atoms) :
    Orderly n ρ (atoms ++ [.var id]) ↔
      Orderly n ρ atoms ∧ id = n + firstPlace (strangers n atoms) id := by
  have hsame := strangers_concat atoms (a := .var id) rfl (mem_strangers.mp hid).1
  constructor
  · rintro ⟨hgeneric, hinOrder, hplace⟩
    rw [hsame] at hinOrder hplace
    obtain ⟨hbefore, hself⟩ := (inOrder_concat_of_mem hid).mp hinOrder
    refine ⟨⟨generic_concat.mp hgeneric, hbefore, fun i hi => ?_⟩, hself⟩
    rw [hplace i (by simp [hi]), firstPlace_concat_of_mem hi]
  · rintro ⟨⟨hgeneric, hinOrder, hplace⟩, hself⟩
    refine ⟨generic_concat.mpr hgeneric, ?_, ?_⟩
    · rw [hsame]
      exact (inOrder_concat_of_mem hid).mpr ⟨hinOrder, hself⟩
    · rw [hsame]
      intro i hi
      have hmem : i ∈ strangers n atoms := by
        rcases List.mem_append.mp hi with hi | hi
        · exact hi
        · exact List.mem_singleton.mp hi ▸ hid
      rw [firstPlace_concat_of_mem hmem, hplace i hmem]

/-- A stranger that comes for the first time is carried on in order when its number has
not been given out yet, and then it is given the next. -/
theorem concat_first (hle : n ≤ id) (hid : id ∉ strangers n atoms) :
    Orderly n ρ (atoms ++ [.var id]) ↔
      Orderly n ρ atoms ∧ n + (strangers n atoms).eraseDups.length ≤ id ∧
        ρ id = n + (strangers n atoms).eraseDups.length := by
  have hsame := strangers_concat atoms (a := .var id) rfl hle
  constructor
  · rintro ⟨hgeneric, hinOrder, hplace⟩
    rw [hsame] at hinOrder hplace
    obtain ⟨hbefore, hself⟩ := (inOrder_concat_of_not_mem hid).mp hinOrder
    refine ⟨⟨generic_concat.mp hgeneric, hbefore, fun i hi => ?_⟩, hself, ?_⟩
    · rw [hplace i (by simp [hi]), firstPlace_concat_of_mem hi]
    · rw [hplace id (by simp), firstPlace_concat_self hid]
  · rintro ⟨⟨hgeneric, hinOrder, hplace⟩, hself, hnew⟩
    refine ⟨generic_concat.mpr hgeneric, ?_, ?_⟩
    · rw [hsame]
      exact (inOrder_concat_of_not_mem hid).mpr ⟨hinOrder, hself⟩
    · rw [hsame]
      intro i hi
      rcases List.mem_append.mp hi with hi | hi
      · rw [firstPlace_concat_of_mem hi, hplace i hi]
      · obtain rfl := List.mem_singleton.mp hi
        rw [firstPlace_concat_self hid, hnew]

/-- Atoms before others are orderly when all are. -/
theorem of_concat (h : Orderly n ρ (atoms ++ [a])) : Orderly n ρ atoms := by
  rcases a.known_or_strange n with hknown | ⟨id, rfl | rfl, hle⟩
  · exact (concat_of_known hknown).mp h
  · by_cases hid : id ∈ strangers n atoms
    · exact ((concat_again hid).mp h).1
    · exact ((concat_first hle hid).mp h).1
  · exact absurd (h.generic id (by simp)) (Nat.not_lt_of_le hle)

end Orderly

section Faithful

variable {n id : Nat} {ρ : Nat → Nat} {atoms : List Atom}

/-- A renumbering of more variables is one of fewer. -/
theorem Renumbering.mono {ids ids' : List Nat} (h : Renumbering n ids ρ) (hsub : ids' ⊆ ids) :
    Renumbering n ids' ρ :=
  ⟨h.known, h.strange, fun i hi j hj => h.injective i (hsub hi) j (hsub hj)⟩

/-- An atom that is no strange variable is taken over as it is. -/
theorem Renumbering.keeps_known {ids : List Nat} {a : Atom} {count : Nat}
    (h : Renumbering n ids ρ) (hcount : n ≤ count)
    (hknown : ∀ id, a.number? = some id → id < n) :
    a.adopt count = (a, count) ∧ a.renumber ρ = a := by
  cases a with
  | var id | generic id =>
      have hid : id < n := hknown id rfl
      simp [Atom.adopt, Atom.number?, Atom.renumber, h.known id hid, Nat.lt_of_lt_of_le hid hcount]
  | _ => exact ⟨rfl, rfl⟩

/-- What becomes of the next strange variable: as it should be exactly when it comes in
order. -/
theorem Orderly.adopt_var_iff (h : Orderly n ρ atoms)
    (hρ : Renumbering n (numbers (atoms ++ [.var id])) ρ) (hle : n ≤ id) :
    let count := n + (strangers n atoms).eraseDups.length
    let r := (Atom.var id).adopt count
    (r.1 = .var (ρ id) ↔ Orderly n ρ (atoms ++ [.var id])) ∧
      (r.1 = .var (ρ id) → r.2 = n + (strangers n (atoms ++ [.var id])).eraseDups.length) := by
  have hstrangers := strangers_concat atoms (a := .var id) rfl hle
  by_cases hid : id ∈ strangers n atoms
  · have hlt := firstPlace_lt hid
    rw [Orderly.concat_again hid, hstrangers, eraseDups_concat, if_pos hid]
    have hplace := h.place id hid
    simp only [Atom.adopt, Atom.number?]
    split
    · next hold =>
        refine ⟨⟨fun heq => ⟨h, ?_⟩, fun hself => ?_⟩, fun _ => rfl⟩
        · exact (Atom.var.inj heq).trans hplace
        · rw [hplace, ← hself.2]
    · next hnew =>
        have hnot : n + (strangers n atoms).eraseDups.length ≠ ρ id := by omega
        refine ⟨⟨fun heq => absurd (Atom.var.inj heq) hnot, fun hself => ?_⟩,
          fun heq => absurd (Atom.var.inj heq) hnot⟩
        have := hself.2
        omega
  · rw [Orderly.concat_first hle hid, hstrangers, eraseDups_concat, if_neg hid]
    simp only [Atom.adopt, Atom.number?]
    split
    · next hold =>
        -- the number is that of a new variable, which stands for another stranger
        have hnot : id ≠ ρ id := fun heq => by
          obtain ⟨i, hi, hplace⟩ := exists_firstPlace
            (show id - n < (strangers n atoms).eraseDups.length by omega)
          have hρi : ρ i = ρ id := by
            rw [h.place i hi, hplace, ← heq]
            omega
          have hmem : i ∈ numbers (atoms ++ [.var id]) :=
            (List.mem_filter.mp (hstrangers ▸ List.mem_append_left _ hi)).1
          have hsame := hρ.injective i hmem id (by simp [numbers, Atom.number?]) hρi
          exact hid (hsame ▸ hi)
        refine ⟨⟨fun heq => absurd (Atom.var.inj heq) hnot, fun hself => ?_⟩,
          fun heq => absurd (Atom.var.inj heq) hnot⟩
        omega
    · next hnew =>
        refine ⟨⟨fun heq => ⟨h, by omega, (Atom.var.inj heq).symm⟩, fun hself => ?_⟩, fun _ => ?_⟩
        · rw [hself.2.2]
        · rw [List.length_append, List.length_singleton, Nat.add_assoc]

/-- A strange generic parameter never comes out as one. -/
theorem Orderly.adopt_generic_ne (h : Orderly n ρ atoms)
    (hρ : Renumbering n (numbers (atoms ++ [.generic id])) ρ) (hle : n ≤ id)
    (hsort : .var id ∉ atoms) :
    ((Atom.generic id).adopt (n + (strangers n atoms).eraseDups.length)).1 ≠ .generic (ρ id) := by
  simp only [Atom.adopt, Atom.number?]
  split
  · next hold =>
      intro heq
      obtain ⟨i, hi, hplace⟩ := exists_firstPlace
        (show id - n < (strangers n atoms).eraseDups.length by omega)
      have hρi : ρ i = ρ id := by
        rw [h.place i hi, hplace, ← Atom.generic.inj heq]
        omega
      have hmem : i ∈ numbers (atoms ++ [.generic id]) := by
        rw [numbers, List.filterMap_append]
        exact List.mem_append_left _ (List.mem_filter.mp hi).1
      obtain rfl := hρ.injective i hmem id (by simp [numbers, Atom.number?]) hρi
      rcases (mem_strangers.mp hi).2 with hvar | hgeneric
      · exact hsort hvar
      · exact Nat.not_lt_of_le hle (h.generic i hgeneric)
  · simp

/-- **Where atoms come out renumbered.**  The renumbering is right about what becomes of
all the atoms exactly when they are orderly. -/
theorem adoptAtoms_eq_iff (hρ : Renumbering n (numbers atoms) ρ)
    (hsort : ∀ id, .var id ∈ atoms → .generic id ∉ atoms) :
    ((adoptAtoms atoms n).1 = atoms.map (Atom.renumber ρ) ↔ Orderly n ρ atoms) ∧
      ((adoptAtoms atoms n).1 = atoms.map (Atom.renumber ρ) →
        (adoptAtoms atoms n).2 = n + (strangers n atoms).eraseDups.length) := by
  induction atoms using List.reverseRecOn with
  | nil => exact ⟨iff_of_true rfl ⟨by simp, by simp [InOrder, strangers, numbers],
      by simp [strangers, numbers]⟩, fun _ => rfl⟩
  | append_singleton atoms a ih =>
      have hsub : numbers atoms ⊆ numbers (atoms ++ [a]) := by
        rw [numbers, numbers, List.filterMap_append]
        exact List.subset_append_left _ _
      obtain ⟨hiff, hcount⟩ := ih (hρ.mono hsub) fun id hid hbad =>
        hsort id (List.mem_append_left _ hid) (List.mem_append_left _ hbad)
      have hlast : (adoptAtoms (atoms ++ [a]) n).2 = (a.adopt (adoptAtoms atoms n).2).2 := by
        rw [adoptAtoms_append]
        rfl
      rw [adoptAtoms_concat_eq_iff, hlast]
      by_cases hfirst : (adoptAtoms atoms n).1 = atoms.map (Atom.renumber ρ)
      · have horderly := hiff.mp hfirst
        have hold := hρ.keeps_known (a := a) (le_adoptAtoms atoms)
        rw [hcount hfirst] at hold ⊢
        simp only [hfirst, true_and]
        rcases a.known_or_strange n with hknown | ⟨id, rfl | rfl, hle⟩
        · obtain ⟨hadopt, hrenumber⟩ := hold hknown
          rw [hadopt, hrenumber, strangers_concat_of_known atoms hknown]
          exact ⟨iff_of_true rfl ((Orderly.concat_of_known hknown).mpr horderly), fun _ => rfl⟩
        · exact horderly.adopt_var_iff hρ hle
        · have hne := horderly.adopt_generic_ne hρ hle fun hid =>
            hsort id (List.mem_append_left _ hid) (by simp)
          exact ⟨iff_of_false hne fun h => Nat.not_lt_of_le hle (h.generic id (by simp)),
            fun heq => absurd heq hne⟩
      · have hnot : ¬ Orderly n ρ (atoms ++ [a]) := fun h => hfirst (hiff.mpr h.of_concat)
        exact ⟨iff_of_false (fun h => hfirst h.1) hnot, fun h => absurd h.1 hfirst⟩

end Faithful

/-- Where atoms are orderly, some renumbering is right about all of them. -/
theorem exists_orderly_iff {n : Nat} {atoms : List Atom} :
    (∃ ρ, Renumbering n (numbers atoms) ρ ∧ Orderly n ρ atoms) ↔
      (∀ id, .generic id ∈ atoms → id < n) ∧ InOrder n (strangers n atoms) := by
  constructor
  · rintro ⟨ρ, -, h⟩
    exact ⟨h.generic, h.inOrder⟩
  · rintro ⟨hgeneric, hinOrder⟩
    let ρ : Nat → Nat := fun id => if id < n then id else n + firstPlace (strangers n atoms) id
    have hknown : ∀ id < n, ρ id = id := fun id hid => if_pos hid
    have hstrange : ∀ id, n ≤ id → ρ id = n + firstPlace (strangers n atoms) id :=
      fun id hid => if_neg (Nat.not_lt_of_le hid)
    refine ⟨ρ, ⟨hknown, fun id hid => ?_, fun i hi j hj heq => ?_⟩, hgeneric, hinOrder,
      fun id hid => hstrange id (mem_strangers.mp hid).1⟩
    · rw [hstrange id hid]
      exact Nat.le_add_right n _
    · rcases Nat.lt_or_ge i n with hin | hin <;> rcases Nat.lt_or_ge j n with hjn | hjn
      · rwa [hknown i hin, hknown j hjn] at heq
      · rw [hknown i hin, hstrange j hjn] at heq
        omega
      · rw [hstrange i hin, hknown j hjn] at heq
        omega
      · rw [hstrange i hin, hstrange j hjn] at heq
        have hmem : i ∈ strangers n atoms := List.mem_filter.mpr ⟨hi, by simpa using hin⟩
        exact (firstPlace_inj hmem).mp (Nat.add_left_cancel heq)

namespace Tree

mutual

/-- What becomes of a tree where there are `count` variables, and how many there are
then. -/
def adopt : Tree → Nat → Tree × Nat
  | .atom a, count => (.atom (a.adopt count).1, (a.adopt count).2)
  | .app f ts, count => (.app f (adoptAll ts count).1, (adoptAll ts count).2)

/-- Several trees in turn. -/
def adoptAll : List Tree → Nat → List Tree × Nat
  | [], count => ([], count)
  | t :: ts, count =>
    let first := t.adopt count
    let rest := adoptAll ts first.2
    (first.1 :: rest.1, rest.2)

end

mutual

/-- A tree with the numbers of its variables of either sort replaced. -/
def renumber (ρ : Nat → Nat) : Tree → Tree
  | .atom a => .atom (a.renumber ρ)
  | .app f ts => .app f (renumberAll ρ ts)

/-- Several trees with the numbers of their variables replaced. -/
def renumberAll (ρ : Nat → Nat) : List Tree → List Tree
  | [] => []
  | t :: ts => t.renumber ρ :: renumberAll ρ ts

end

/-- The second tree is the first, its variables renumbered: those below `n` stay, each
other becomes one from `n` on, different ones stay different, and so do their sorts. -/
def Renamed (n : Nat) (t t' : Tree) : Prop :=
  ∃ ρ, Renumbering n (numbers t.atoms) ρ ∧ t' = t.renumber ρ

variable {t : Tree} {ts : List Tree} {n : Nat} {ρ : Nat → Nat}

/-- The atoms of a tree decide what becomes of it. -/
theorem adopt_atoms (t : Tree) (n : Nat) :
    (t.adopt n).2 = (adoptAtoms t.atoms n).2 ∧
      ((t.adopt n).1 = t.renumber ρ ↔
        (adoptAtoms t.atoms n).1 = t.atoms.map (Atom.renumber ρ)) := by
  induction t generalizing n with
  | atom a => simp [adopt, renumber, adoptAtoms]
  | app f ts ih =>
      have hall : ∀ n, (adoptAll ts n).2 = (adoptAtoms (atomsAll ts) n).2 ∧
          ((adoptAll ts n).1 = renumberAll ρ ts ↔
            (adoptAtoms (atomsAll ts) n).1 = (atomsAll ts).map (Atom.renumber ρ)) := by
        induction ts with
        | nil => exact fun n => ⟨rfl, iff_of_true rfl rfl⟩
        | cons t ts ihs =>
            intro n
            obtain ⟨hcount, hfirst⟩ := ih t List.mem_cons_self n
            obtain ⟨hcount', hrest⟩ := ihs (fun u hu => ih u (List.mem_cons_of_mem _ hu))
              (t.adopt n).2
            rw [hcount] at hcount' hrest
            simp only [adoptAll, atomsAll, renumberAll, adoptAtoms_append, List.map_append,
              List.cons.injEq, hcount, hcount', hfirst, hrest, true_and]
            constructor
            · rintro ⟨h, h'⟩
              rw [h, h']
            · exact fun h => List.append_inj h (by simp [adoptAtoms_length])
      simpa [adopt, renumber, atoms] using hall n

/-- **When a tree comes out renamed.** -/
theorem renamed_adopt_iff (hsort : ∀ id, .var id ∈ t.atoms → .generic id ∉ t.atoms) :
    t.Renamed n (t.adopt n).1 ↔
      (∀ id, .generic id ∈ t.atoms → id < n) ∧ InOrder n (strangers n t.atoms) := by
  rw [← exists_orderly_iff]
  refine exists_congr fun ρ => and_congr_right fun hρ => ?_
  exact (adopt_atoms t n).2.trans (adoptAtoms_eq_iff hρ hsort).1

end Tree

end DotCall
