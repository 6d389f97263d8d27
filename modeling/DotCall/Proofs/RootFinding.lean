import DotCall.Proofs.StoreSolution
import DotCall.Type.Unification

/-!
# Finding roots and looking for variables

Finding the root of a type shortens the links on the way and changes nothing
else.  Looking for a variable inside a type skips the parts whose summary has
no variable; it still finds exactly the variables of the meaning.
-/

namespace DotCall.TypeStore

/-- Nothing but links was changed, and these were only shortened. -/
structure Shortens (s s' : TypeStore) : Prop where
  entries : s'.entries = s.entries
  handles : s'.handles = s.handles
  count : s'.variableCount = s.variableCount
  keeps : Keeps s s'
  logged : Logged s s'

namespace Shortens

variable {s s' s'' : TypeStore} {t : TypeId}

theorem refl (s : TypeStore) : Shortens s s := ⟨rfl, rfl, rfl, .refl s, .refl s⟩

/-- Shortening links makes no circle. -/
theorem ordered (h : Shortens s s') (hs : s.Ordered) : s'.Ordered := by
  refine h.keeps.ordered hs (hs.wellFormed.rebind h.entries h.handles ?_ ?_)
  · exact Nat.le_of_eq h.count.symm
  · intro id t hb
    obtain ⟨u, hu, rfl | rfl⟩ := h.keeps.linked_cases hb
    · exact hs.wellFormed.linked_has hu
    · exact hs.has_root (hs.wellFormed.linked_has hu)

/-- Shortening twice is shortening. -/
theorem trans (h : Shortens s s') (h' : Shortens s' s'') (hs : s.Ordered) : Shortens s s'' where
  entries := h'.entries.trans h.entries
  handles := h'.handles.trans h.handles
  count := h'.count.trans h.count
  keeps := h.keeps.trans h'.keeps hs (h.ordered hs)
  logged := h.logged.trans h'.logged h.keeps.grows h'.keeps.grows

theorem node_eq (h : Shortens s s') : s'.node = s.node := node_congr h.entries

theorem summary_eq (h : Shortens s s') : s'.summary = s.summary := summary_congr h.entries

theorem size_eq (h : Shortens s s') : s'.size = s.size := by simp [size, h.entries]

theorem has_iff (h : Shortens s s') : s'.Has t ↔ s.Has t := by simp [Has, h.size_eq]

end Shortens

/-- Pointing a linked variable at the end of its chain only shortens links. -/
theorem shortens_assigned {s : TypeStore} {id : Nat} {target : TypeId}
    (hb : s.binding id = .linked target) :
    Shortens s (s.assigned id (.linked (s.root target))) := by
  have hid : id < s.variableCount := lt_of_binding hb (by simp)
  refine ⟨rfl, rfl, assigned_count, ⟨assigned_grows, fun v _ => ?_, fun v hv w => ?_⟩,
    assigned_logged hid⟩
  · rw [assigned_binding hid]
    split
    · next heq => exact .inr ⟨target, heq ▸ hb, rfl⟩
    · exact .inl rfl
  · have hne : v ≠ id := by omega
    rw [assigned_binding hid, if_neg hne]
    exact (Keeps.refl s).fresh v hv w

section Running

variable {s : TypeStore} {t : TypeId}

/-- A type that is not linked is its own root, and nothing is shortened. -/
theorem findRootWithin_of_no_link (hl : s.link? t = none) (n : Nat) :
    (findRootWithin n t).run s = (t, s) := by
  cases n with
  | zero => rfl
  | succ n => simp only [findRootWithin, run_bind, run_get, hl, run_pure]

/-- For a linked variable the root of its target is found first. Only then is the variable
linked to that root, where it was not already. -/
theorem findRootWithin_of_link {id : Nat} {target : TypeId} (hl : s.link? t = some (id, target))
    (n : Nat) :
    let rest := (findRootWithin n target).run s
    (findRootWithin (n + 1) t).run s =
      (rest.1, if rest.1 ≠ target then rest.2.assigned id (.linked rest.1) else rest.2) := by
  simp only [findRootWithin, run_bind, run_get, hl]
  split <;> rfl

/-- The same for the search with the bound of the store. -/
theorem findRoot_of_no_link (hl : s.link? t = none) : (findRoot t).run s = (t, s) :=
  findRootWithin_of_no_link hl s.size

end Running

namespace Ordered

variable {s : TypeStore} {t : TypeId}

/-- **The search for a root** finds it with any bound that is not below the rank of the
type, and shortens links on the way. -/
theorem findRootWithin_run (h : s.Ordered) {rank : TypeId → Nat}
    (hrank : ∀ c t, s.Descends c t → rank c < rank t) {n : Nat} (hn : rank t ≤ n) :
    ((findRootWithin n t).run s).1 = s.root t ∧ Shortens s ((findRootWithin n t).run s).2 := by
  induction n generalizing t with
  | zero =>
      have hl : s.link? t = none := by
        cases hl : s.link? t with
        | none => rfl
        | some p =>
            have hlt := hrank p.2 t (.inr ⟨p.1, hl⟩)
            omega
      exact ⟨(root_of_no_link hl).symm, .refl s⟩
  | succ n ih =>
      cases hl : s.link? t with
      | none =>
          rw [findRootWithin_of_no_link hl]
          exact ⟨(root_of_no_link hl).symm, .refl s⟩
      | some p =>
          obtain ⟨id, target⟩ := p
          have hlt := hrank target t (.inr ⟨id, hl⟩)
          obtain ⟨hlast, hshort⟩ := ih (t := target) (by omega)
          have hb : s.binding id = .linked target := (link?_eq_some.mp hl).2
          rw [findRootWithin_of_link hl, hlast]
          refine ⟨(h.root_of_link hl).symm, ?_⟩
          split
          · -- the variable passed is pointed at the end of the chain
            obtain ⟨v, hv, hroot⟩ := hshort.keeps.linked_root h (hshort.ordered h) hb
            rw [← hroot]
            exact hshort.trans (shortens_assigned hv) h
          · exact hshort

/-- Finding the root gives the root and only shortens links. -/
theorem findRoot_run (h : s.Ordered) (t : TypeId) :
    ((findRoot t).run s).1 = s.root t ∧ Shortens s ((findRoot t).run s).2 := by
  obtain ⟨rank, hrank, hle, -⟩ := h.exists_rank
  exact h.findRootWithin_run hrank (hle t)

/-- **The occurs check** decides with any bound above the rank of the type whether a free
variable occurs in its meaning. -/
theorem occursWithin_iff (h : s.Ordered) {id : Nat} (hfree : ∀ u, s.binding id ≠ .linked u)
    {rank : TypeId → Nat} (hrank : ∀ c t, s.Descends c t → rank c < rank t) {n : Nat}
    (hn : rank t < n) : s.occursWithin id n t = true ↔ .var id ∈ (s.meaning t).atoms := by
  induction n generalizing t with
  | zero => omega
  | succ n ih =>
      by_cases hvar : (s.summary t).hasVar = true
      · rw [occursWithin, hvar, Bool.true_and]
        cases hnode : s.node t with
        | app f args =>
            have hroot := root_of_no_link (link?_of_app hnode)
            rw [h.meaning_of_app (by rw [hroot, hnode]), Tree.mem_atoms_app]
            simp only [List.any_eq_true, List.mem_map]
            have hstep : ∀ a ∈ args, s.Descends a t := fun a ha =>
              .inl (by simpa [hnode, Node.args] using ha)
            have hsub : ∀ a ∈ args,
                (s.occursWithin id n a = true ↔ .var id ∈ (s.meaning a).atoms) := fun a ha => by
              have hlt := hrank a t (hstep a ha)
              exact ih (by omega)
            constructor
            · rintro ⟨a, ha, hocc⟩
              exact ⟨_, ⟨a, ha, rfl⟩, (hsub a ha).mp hocc⟩
            · rintro ⟨_, ⟨a, ha, rfl⟩, hocc⟩
              exact ⟨a, ha, (hsub a ha).mpr hocc⟩
        | atom a =>
            cases a with
            | var v =>
                cases hb : s.binding v with
                | linked u =>
                    have hl : s.link? t = some (v, u) := link?_eq_some.mpr ⟨hnode, hb⟩
                    have hne : v ≠ id := fun heq => hfree u (heq ▸ hb)
                    have hlt := hrank u t (.inr ⟨v, hl⟩)
                    simp only [beq_eq_false_iff_ne.mpr hne, Bool.false_or, hb]
                    rw [h.meaning_of_link hl, ih (by omega)]
                | _ =>
                    have hroot : s.root t = t :=
                      root_of_no_link (link?_eq_none.mpr fun i w hi hw => by
                        obtain rfl : v = i := by simpa [hnode] using hi
                        simp [hb] at hw)
                    rw [meaning_of_atom (by rw [hroot, hnode])]
                    simp only [hb, Bool.or_false, beq_iff_eq, Tree.atoms_atom,
                      List.mem_singleton, Atom.var.injEq]
                    exact eq_comm
            | _ =>
                have hroot : s.root t = t := root_of_no_link (by simp [link?, hnode])
                rw [meaning_of_atom (by rw [hroot, hnode])]
                simp
      · -- no variable is written, so none is met on the way
        have hnone : ∀ v, .var v ∉ (s.written t).atoms := fun v hv =>
          hvar ((Summary.Tracks.hasVar.summary_iff h.wellFormed t).mpr ⟨_, hv, v, rfl⟩)
        rw [h.meaning_eq_written fun v hv => absurd hv (hnone v)]
        simp [occursWithin, hvar, hnone id]

/-- **Occurs check.**  A variable that is not linked is found in a type exactly
when it occurs in what the type means. -/
theorem occurs_iff (h : s.Ordered) {id : Nat} (hfree : ∀ u, s.binding id ≠ .linked u)
    (t : TypeId) : s.occurs id t = true ↔ .var id ∈ (s.meaning t).atoms := by
  obtain ⟨rank, hrank, hle, -⟩ := h.exists_rank
  exact h.occursWithin_iff hfree hrank (Nat.lt_succ_of_le (hle t))

end Ordered

end DotCall.TypeStore
