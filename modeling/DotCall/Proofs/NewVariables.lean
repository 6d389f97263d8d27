import DotCall.Proofs.QuietWork

/-!
# New variables

A variable gets the next number, a binding to begin with and a type of its own.
Inference variables begin free and generic parameters as what they are.  Either
way no link is touched, and nothing else is made.
-/

namespace DotCall

/-- An atom with the number `id`, and a binding that such a variable begins
with. -/
def Binding.Begins (id : Nat) (a : Atom) (b : Binding) : Prop :=
  (∃ name, a = .var id ∧ b = .free id name) ∨ ∃ name, a = .generic id ∧ b = .generic name

namespace TypeStore

/-- The store with one more variable, before its type is made. -/
def withVariable (s : TypeStore) (b : Binding) : TypeStore :=
  { s with bindings := s.bindings.push b }

section WithVariable

variable {s : TypeStore} {b : Binding}

/-- There is one more variable. -/
theorem withVariable_count : (s.withVariable b).variableCount = s.variableCount + 1 := by
  simp [withVariable, variableCount]

/-- The new variable has the binding that it was made with, and every other keeps its own.
-/
theorem withVariable_binding {id : Nat} :
    (s.withVariable b).binding id = if id = s.variableCount then b else s.binding id := by
  by_cases h : id = s.variableCount
  · simp [binding, withVariable, variableCount, h]
  · have h' : ¬ id = s.bindings.size := h
    simp [binding, withVariable, Array.getElem?_push, h, h']

/-- No type is changed by it. -/
theorem withVariable_grows : Grows s (s.withVariable b) :=
  .of_entries_eq rfl (by simp [withVariable_count])

/-- No link is changed, as the new variable is not linked. -/
theorem withVariable_keeps (hb : ∀ t, b ≠ .linked t) : Keeps s (s.withVariable b) where
  grows := withVariable_grows
  binding id hid := .inl (by rw [withVariable_binding, if_neg (Nat.ne_of_lt hid)])
  fresh id hid t := by
    rw [withVariable_binding]
    split
    · exact hb t
    · exact fun heq => Nat.not_lt_of_le hid (lt_of_binding heq (by simp))

/-- A new variable that is not linked cannot close a circle. -/
theorem Ordered.withVariable (h : s.Ordered) (hb : ∀ t, b ≠ .linked t) :
    (s.withVariable b).Ordered := by
  have hkeeps : Keeps s (s.withVariable b) := withVariable_keeps hb
  refine hkeeps.ordered h (h.wellFormed.rebind rfl rfl (by simp [withVariable_count]) ?_)
  intro id t hlinked
  obtain ⟨u, hu, rfl | rfl⟩ := hkeeps.linked_cases hlinked
  · exact h.wellFormed.linked_has hu
  · exact h.has_root (h.wellFormed.linked_has hu)

end WithVariable

/-- What making a variable does. -/
structure AddsVariable (s s' : TypeStore) (a : Atom) (b : Binding) (t : TypeId) : Prop where
  ordered : s'.Ordered
  keeps : Keeps s s'
  logged : Logged s s'
  has : s'.Has t
  node : s'.node t = .atom a
  count : s'.variableCount = s.variableCount + 1
  binding : s'.binding s.variableCount = b
  only : ∀ {u}, ¬ s.Has u → s'.Has u → u = t

namespace Ordered

variable {s : TypeStore}

/-- **Making a variable.**  It gets the next number and is all that is added. -/
theorem addVariable_run (h : s.Ordered) (first : Nat → Binding) (mk : Nat → Atom)
    (hfirst : Binding.Begins s.variableCount (mk s.variableCount) (first s.variableCount)) :
    let r := (addVariable first >>= fun id => intern (.atom (mk id))).run s
    AddsVariable s r.2 (mk s.variableCount) (first s.variableCount) r.1 := by
  generalize hb : first s.variableCount = b at hfirst
  generalize ha : mk s.variableCount = a at hfirst
  have hrun : (addVariable first >>= fun id => intern (.atom (mk id))).run s =
      (intern (.atom a)).run (s.withVariable b) := by
    rw [← hb, ← ha]
    rfl
  have hnot : ∀ t, b ≠ .linked t := by
    rcases hfirst with ⟨name, -, rfl⟩ | ⟨name, -, rfl⟩ <;> simp
  have h₁ : (s.withVariable b).Ordered := h.withVariable hnot
  have hadmits : (s.withVariable b).Admits (.atom a) :=
    Admits.atom
      (fun id hid => by
        rcases hfirst with ⟨name, rfl, -⟩ | ⟨name, rfl, -⟩
        · obtain rfl : s.variableCount = id := by simpa using hid
          simp [withVariable_count]
        · simp at hid)
      (fun id hid => by
        rcases hfirst with ⟨name, rfl, -⟩ | ⟨name, rfl, -⟩
        · simp at hid
        · obtain rfl : s.variableCount = id := by simpa using hid
          simp [withVariable_count])
  -- the type of a variable beyond the store is not there yet
  have hnew : (s.withVariable b).handles[Node.atom a]? = none := by
    rw [Option.eq_none_iff_forall_ne_some]
    intro t ht
    have hnode : s.node t = .atom a := (h.wellFormed.handle_iff.mp ht).2
    rcases hfirst with ⟨name, rfl, -⟩ | ⟨name, rfl, -⟩
    · exact Nat.lt_irrefl _ (h.wellFormed.var_lt hnode)
    · exact Nat.lt_irrefl _ (h.wellFormed.generic_lt hnode)
  have hpush : (intern (.atom a)).run (s.withVariable b) =
      (⟨s.size⟩, (s.withVariable b).push (.atom a)) := intern_of_none hnew
  rw [hrun, hpush]
  have hadds : Adds (s.withVariable b) ((s.withVariable b).push (.atom a)) := adds_push
  have hwf := h₁.wellFormed.push hadmits hnew
  have h₂ := (Keeps.of_adds hadds).ordered h₁ hwf
  have hsize : (s.withVariable b).size = s.size := rfl
  have hkeeps := (withVariable_keeps hnot).trans (.of_adds hadds) h h₁
  have hnode : ((s.withVariable b).push (.atom a)).node ⟨s.size⟩ = .atom a := by
    simp [node_push, hsize]
  have hbinding : ((s.withVariable b).push (.atom a)).binding s.variableCount = b := by
    rw [hadds.binding_eq, withVariable_binding, if_pos rfl]
  have hcount : ((s.withVariable b).push (.atom a)).variableCount = s.variableCount + 1 :=
    withVariable_count
  exact
    { ordered := h₂
      keeps := hkeeps
      logged :=
        { opens := rfl
          closed := fun _ => rfl
          opened := fun _ => by
            refine ⟨[], rfl, by simp, ?_, ?_⟩
            · intro id hid
              rw [hadds.binding_eq, withVariable_binding, if_neg (Nat.ne_of_lt hid)]
              rfl
            · intro id hge hlt
              obtain rfl : id = s.variableCount :=
                Nat.le_antisymm (Nat.le_of_lt_succ (Nat.lt_of_lt_of_eq hlt hcount)) hge
              rw [TrailEntry.restored_nil, hbinding]
              rcases hfirst with ⟨name, rfl, rfl⟩ | ⟨name, rfl, rfl⟩
              · exact .inl ⟨name, _, rfl, hnode⟩
              · exact .inr ⟨name, _, rfl, hnode⟩ }
      has := by simp [Has, size_push, hsize]
      node := hnode
      count := hcount
      binding := hbinding
      only := fun {u} hn hu => by
        simp only [Has, size_push, hsize] at hn hu
        obtain ⟨i⟩ := u
        simp only [TypeId.mk.injEq]
        simp only at hn hu
        omega }

/-- A new inference variable is quiet work. -/
theorem newVar_run (h : s.Ordered) :
    let r := newVar.run s
    Quiet s r.2 ∧ AddsVariable s r.2 (.var s.variableCount) (.free s.variableCount none) r.1 := by
  have hadd : AddsVariable s (newVar.run s).2 (.var s.variableCount)
      (.free s.variableCount none) (newVar.run s).1 :=
    h.addVariable_run (.free · none) .var (.inl ⟨none, rfl, rfl⟩)
  have hlast : ∀ id, s.variableCount ≤ id → id < (newVar.run s).2.variableCount →
      id = s.variableCount := fun id hge hlt =>
    Nat.le_antisymm (Nat.le_of_lt_succ (Nat.lt_of_lt_of_eq hlt hadd.count)) hge
  exact
    ⟨{ start := h
       finish := hadd.ordered
       grows := hadd.keeps.grows
       logged := hadd.logged
       atom := fun hn ht ha => by
         rw [hadd.only hn ht, hadd.node] at ha
         exact ⟨_, (Node.atom.inj ha).symm, Nat.le_refl _⟩
       item := fun id hge hlt => ⟨_, hlast id hge hlt ▸ hadd.node⟩
       keeps := hadd.keeps
       free := fun id hge hlt => ⟨none, hlast id hge hlt ▸ hadd.binding⟩ }, hadd⟩

/-- New variables have the next numbers, in order. -/
theorem newVars_run (h : s.Ordered) (n : Nat) :
    let r := (newVars n).run s
    Quiet s r.2 ∧ r.2.variableCount = s.variableCount + n ∧
      r.1.map r.2.node = (List.range' s.variableCount n).map fun id => .atom (.var id) := by
  induction n generalizing s with
  | zero => exact ⟨.refl h, rfl, rfl⟩
  | succ n ih =>
      obtain ⟨hq, hadd⟩ := h.newVar_run
      obtain ⟨hq', hcount, hnodes⟩ := ih hq.finish
      have hrun : (newVars (n + 1)).run s =
          ((newVar.run s).1 :: ((newVars n).run (newVar.run s).2).1,
            ((newVars n).run (newVar.run s).2).2) := rfl
      rw [hrun]
      refine ⟨hq.trans hq', ?_, ?_⟩
      · rw [hcount, hadd.count, Nat.add_assoc, Nat.add_comm 1 n]
      · rw [List.map_cons, hq'.node_eq hadd.has, hadd.node, hnodes, hadd.count]
        rfl

end Ordered

end TypeStore

end DotCall
