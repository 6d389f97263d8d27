import DotCall.Proofs.MostGeneral
import DotCall.Proofs.TypeRebuilding
import Mathlib.Data.List.Permutation
import Std.Internal.Do.WP

/-!
# The stores that a program can reach

A program makes types and variables, expands, instantiates and unifies types,
and sets checkpoints that it closes innermost first.  Whatever it does in
whatever order, the store stays sound: unification that fails midway leaves
links behind, and reverting takes them back, but neither makes a circle or
links a variable to an error or a parameter.

Reverting needs a memory of the past: for every open checkpoint there was a
sound store, and all work since then can be undone (`Backed`).
-/

namespace DotCall.TypeStore

namespace Sound

variable {s m s' : TypeStore}

/-- A store stays sound when links are kept and what is new has bindings of its
sort. -/
theorem of_keeps (h : s.Sound) (hk : Keeps s s') (ho : s'.Ordered)
    (hvar : ∀ {t id}, ¬ s.Has t → s'.node t = .atom (.var id) →
      ∀ name, s'.binding id ≠ .generic name)
    (hgeneric : ∀ {t id}, ¬ s.Has t → s'.node t = .atom (.generic id) →
      ∃ name, s'.binding id = .generic name)
    (hnew : ∀ id, s.variableCount ≤ id → id < s'.variableCount →
      ((∃ t, s'.node t = .atom (.var id)) ∧ ∃ name, s'.binding id = .free id name) ∨
        (∃ t, s'.node t = .atom (.generic id)) ∧ ∃ name, s'.binding id = .generic name) :
    s'.Sound where
  ordered := ho
  clean {id t} hb := by
    obtain ⟨u, hu, hcase⟩ := hk.linked_cases hb
    have hhas : s.Has u := h.wellFormed.linked_has hu
    rcases hcase with rfl | rfl
    · exact (hk.grows.clean_iff hhas).mpr (h.clean hu)
    · exact (hk.grows.clean_iff (h.ordered.has_root hhas)).mpr (h.clean_root (h.clean hu))
  var_sort {t id} hn name hb := by
    by_cases ht : s.Has t
    · rw [hk.grows.node_eq ht] at hn
      rcases hk.binding id (h.wellFormed.var_lt hn) with hsame | ⟨u, -, hlinked⟩
      · exact h.var_sort hn name (hsame ▸ hb)
      · rw [hlinked] at hb; cases hb
    · exact hvar ht hn name hb
  generic_sort {t id} hn := by
    by_cases ht : s.Has t
    · rw [hk.grows.node_eq ht] at hn
      obtain ⟨name, hb⟩ := h.generic_sort hn
      exact ⟨name, (hk.binding_of_not_linked (h.wellFormed.generic_lt hn) (by simp [hb])).trans hb⟩
    · exact hgeneric ht hn
  free_id {id i name} hb := by
    by_cases hid : id < s.variableCount
    · rcases hk.binding id hid with hsame | ⟨u, -, hlinked⟩
      · exact h.free_id (hsame ▸ hb)
      · rw [hlinked] at hb; cases hb
    · by_cases hid' : id < s'.variableCount
      · rcases hnew id (Nat.le_of_not_lt hid) hid' with ⟨-, name', hfree⟩ | ⟨-, name', hgen⟩
        · rw [hfree] at hb; exact (Binding.free.inj hb).1.symm
        · rw [hgen] at hb; cases hb
      · have hnone : s'.bindings[id]? = none := Array.getElem?_eq_none (Nat.le_of_not_lt hid')
        simp only [binding, hnone, Option.getD_none, Binding.free.injEq] at hb
        exact hb.1.symm
  item id hid := by
    by_cases hold : id < s.variableCount
    · have hlast : ∀ {t a}, s.node t = .atom a → (∀ slot, a ≠ .reserved slot) →
          s'.node t = .atom a := fun hn ha =>
        (hk.grows.node_eq (has_of_node_ne (by simpa [hn] using ha))).trans hn
      rcases h.item id hold with ⟨t, ht⟩ | ⟨t, ht⟩
      · exact .inl ⟨t, hlast ht (by simp)⟩
      · exact .inr ⟨t, hlast ht (by simp)⟩
    · rcases hnew id (Nat.le_of_not_lt hold) hid with ⟨ht, -⟩ | ⟨ht, -⟩
      · exact .inl ht
      · exact .inr ht

/-- Quiet work keeps a store sound. -/
theorem quiet (h : s.Sound) (hq : Quiet s s') : s'.Sound := by
  refine h.of_keeps hq.keeps hq.finish ?_ ?_ ?_
  · intro t id ht hn name hb
    obtain ⟨v, hv, hge⟩ := hq.atom ht (has_of_node_ne (by simp [hn])) hn
    obtain rfl : id = v := Atom.var.inj hv
    obtain ⟨name', hfree⟩ := hq.free id hge (hq.finish.wellFormed.var_lt hn)
    rw [hfree] at hb
    cases hb
  · intro t id ht hn
    obtain ⟨v, hv, -⟩ := hq.atom ht (has_of_node_ne (by simp [hn])) hn
    cases hv
  · exact fun id hge hlt => .inl ⟨hq.item id hge hlt, hq.free id hge hlt⟩

/-- Making a type that is neither a variable nor a generic parameter. -/
theorem intern_sound (h : s.Sound) {n : Node} (hn : s.Admits n)
    (hvar : ∀ id, n ≠ .atom (.var id)) (hgeneric : ∀ id, n ≠ .atom (.generic id)) :
    ((intern n).run s).2.Sound ∧ Logged s ((intern n).run s).2 ∧ Grows s ((intern n).run s).2 := by
  obtain ⟨hwf, hadds, -, -⟩ := h.wellFormed.intern_run hn
  have hkeeps := Keeps.of_adds hadds
  have hcount : ((intern n).run s).2.variableCount = s.variableCount := by
    simp [variableCount, hadds.bindings]
  refine ⟨h.of_keeps hkeeps (hkeeps.ordered h.ordered hwf) ?_ ?_ ?_, hadds.logged, hadds.grows⟩
  · intro t id ht hid
    have hnode : ((intern n).run s).2.node t = n :=
      node_intern_of_new ht (has_of_node_ne (by simp [hid]))
    exact absurd (hnode.symm.trans hid) (hvar id)
  · intro t id ht hid
    have hnode : ((intern n).run s).2.node t = n :=
      node_intern_of_new ht (has_of_node_ne (by simp [hid]))
    exact absurd (hnode.symm.trans hid) (hgeneric id)
  · intro id hge hlt
    omega

/-- Making a variable or a generic parameter. -/
theorem addsVariable (h : s.Sound) {a : Atom} {b : Binding} {u : TypeId}
    (hadd : AddsVariable s s' a b u) (hb : Binding.Begins s.variableCount a b) : s'.Sound := by
  have hlast : ∀ id, s.variableCount ≤ id → id < s'.variableCount → id = s.variableCount :=
    fun id hge hlt => by have := hadd.count; omega
  have hnode : ∀ {t c}, ¬ s.Has t → s'.node t = .atom c → (∀ slot, c ≠ .reserved slot) →
      a = c := fun {t c} ht hn hc => by
    have hhas : s'.Has t := has_of_node_ne (by simpa [hn] using hc)
    rw [hadd.only ht hhas, hadd.node] at hn
    exact Node.atom.inj hn
  have hbind := hadd.binding
  refine h.of_keeps hadd.keeps hadd.ordered ?_ ?_ ?_
  · intro t id ht hn name
    have ha := hnode ht hn (by simp)
    rcases hb with ⟨name', rfl, rfl⟩ | ⟨name', rfl, rfl⟩
    · obtain rfl : s.variableCount = id := by simpa using ha
      simp [hbind]
    · cases ha
  · intro t id ht hn
    have ha := hnode ht hn (by simp)
    rcases hb with ⟨name', rfl, rfl⟩ | ⟨name', rfl, rfl⟩
    · cases ha
    · obtain rfl : s.variableCount = id := by simpa using ha
      exact ⟨name', hbind⟩
  · intro id hge hlt
    obtain rfl := hlast id hge hlt
    rcases hb with ⟨name', rfl, rfl⟩ | ⟨name', rfl, rfl⟩
    · exact .inl ⟨⟨u, hadd.node⟩, name', hbind⟩
    · exact .inr ⟨⟨u, hadd.node⟩, name', hbind⟩

/-- Unification keeps a store sound, also when it fails. -/
theorem unify_sound (h : s.Sound) {a b : TypeId} (ha : s.Has a) (hb : s.Has b) :
    ((unify a b).run s).2.Sound ∧ Binds s ((unify a b).run s).2 := by
  have hrun := h.ordered.unify_solving ha hb
  have hposed : ∀ e ∈ [Equation.mk a b .whole], s.Poses e := by simpa using ⟨ha, hb⟩
  exact ⟨h.solving_sound hrun hposed, (h.ordered.solving_binds hrun hposed).2⟩

/-- Reverting gives a sound store when the one of the checkpoint and the one
reverted are sound. -/
theorem reverts (h : s.Sound) (hm : m.Sound) (hg : Grows s m) (hr : Reverts s m s') :
    s'.Sound := by
  have hkeeps := Keeps.of_reverts hr hg
  have hwf : s'.WellFormed := by
    refine hm.wellFormed.rebind hr.entries hr.handles (Nat.le_of_eq hr.count.symm) ?_
    intro id t hb
    obtain ⟨u, hu, rfl | rfl⟩ := hkeeps.linked_cases hb
    · exact hg.has (h.wellFormed.linked_has hu)
    · exact hg.has (h.ordered.has_root (h.wellFormed.linked_has hu))
  -- a type has kept the sort of its variable from the checkpoint on
  have hborn : ∀ id, s.variableCount ≤ id → id < m.variableCount →
      ((∃ t, m.node t = .atom (.var id)) ∧ ∃ name, s'.binding id = .free id name) ∨
        (∃ t, m.node t = .atom (.generic id)) ∧ ∃ name, s'.binding id = .generic name := by
    intro id hge hlt
    rcases hr.born id hge hlt with ⟨name, t, hb, ht⟩ | ⟨name, t, hb, ht⟩
    · exact .inl ⟨⟨t, ht⟩, name, hb⟩
    · exact .inr ⟨⟨t, ht⟩, name, hb⟩
  have hclash : ∀ {t u id}, m.node t = .atom (.var id) → m.node u ≠ .atom (.generic id) := by
    intro t u id ht hu
    obtain ⟨name, hb⟩ := hm.generic_sort hu
    exact hm.var_sort ht name hb
  have hlast : ∀ {t a}, s.node t = .atom a → (∀ slot, a ≠ .reserved slot) → m.node t = .atom a :=
    fun hn ha => (hg.node_eq (has_of_node_ne (by simpa [hn] using ha))).trans hn
  refine h.of_keeps hkeeps (hkeeps.ordered h.ordered hwf) ?_ ?_ ?_
  · intro t id _ hn name hb
    rw [hr.node_eq] at hn
    by_cases hid : id < s.variableCount
    · rw [hr.old id hid] at hb
      rcases h.item id hid with ⟨u, hu⟩ | ⟨u, hu⟩
      · exact h.var_sort hu name hb
      · exact hclash hn (hlast hu (by simp))
    · rcases hborn id (Nat.le_of_not_lt hid) (hm.wellFormed.var_lt hn) with
        ⟨-, name', hb'⟩ | ⟨⟨u, hu⟩, -⟩
      · rw [hb'] at hb; cases hb
      · exact hclash hn hu
  · intro t id _ hn
    rw [hr.node_eq] at hn
    by_cases hid : id < s.variableCount
    · rw [hr.old id hid]
      rcases h.item id hid with ⟨u, hu⟩ | ⟨u, hu⟩
      · exact absurd hn (hclash (hlast hu (by simp)))
      · exact h.generic_sort hu
    · rcases hborn id (Nat.le_of_not_lt hid) (hm.wellFormed.generic_lt hn) with
        ⟨⟨u, hu⟩, -⟩ | ⟨-, hb⟩
      · exact absurd hn (hclash hu)
      · exact hb
  · intro id hge hlt
    rw [hr.node_eq]
    exact hborn id hge (hr.count ▸ hlt)

/-- Soundness does not depend on the trail and the checkpoints. -/
theorem congr (h : s.Sound) (he : s'.entries = s.entries) (hh : s'.handles = s.handles)
    (hb : s'.bindings = s.bindings) : s'.Sound := by
  have hbinding : s'.binding = s.binding := by funext id; simp [binding, hb]
  have hcount : s'.variableCount = s.variableCount := by simp [variableCount, hb]
  have hkeeps : Keeps s s' := .of_eq he hb
  have hwf : s'.WellFormed := h.wellFormed.rebind he hh (Nat.le_of_eq hcount.symm)
    (by rw [hbinding]; exact h.wellFormed.linked_has)
  have hnone : ∀ {t a}, ¬ s.Has t → s'.node t = .atom a → ∃ slot, a = .reserved slot := by
    intro t a ht hn
    rw [node_congr he, node_of_not_has ht] at hn
    exact ⟨_, (Node.atom.inj hn).symm⟩
  refine h.of_keeps hkeeps (hkeeps.ordered h.ordered hwf) ?_ ?_ ?_
  · intro t id ht hn
    obtain ⟨slot, hslot⟩ := hnone ht hn
    cases hslot
  · intro t id ht hn
    obtain ⟨slot, hslot⟩ := hnone ht hn
    cases hslot
  · intro id hge hlt
    omega

end Sound

/-- Every node is an atom without a variable, and there are no bindings. -/
structure Blank (s : TypeStore) : Prop where
  wellFormed : s.WellFormed
  bindings : s.bindings = #[]
  node : ∀ t, ∃ a, s.node t = .atom a ∧ (∀ id, a ≠ .var id) ∧ ∀ id, a ≠ .generic id

/-- A store of atoms only, none of them a variable, is sound. -/
theorem Blank.sound {s : TypeStore} (h : s.Blank) : s.Sound := by
  have hbinding : ∀ id, s.binding id = .free id none := by simp [binding, h.bindings]
  have hcount : s.variableCount = 0 := by simp [variableCount, h.bindings]
  have hdescends : ∀ c t, ¬ s.Descends c t := by
    rintro c t (hc | ⟨id, hc⟩)
    · obtain ⟨a, ha, -⟩ := h.node t
      simp [ha, Node.args] at hc
    · have hb := (link?_eq_some.mp hc).2
      simp [hbinding] at hb
  exact
    { ordered := ⟨h.wellFormed, ⟨fun t => ⟨t, fun c hc => absurd hc (hdescends c t)⟩⟩⟩
      clean := fun hb => by simp [hbinding] at hb
      var_sort := fun {t id} hn name hb => by simp [hbinding] at hb
      generic_sort := fun {t id} hn => by
        obtain ⟨a, ha, -, hg⟩ := h.node t
        exact absurd (Node.atom.inj (ha.symm.trans hn)) (hg id)
      free_id := fun hb => by
        rw [hbinding] at hb
        exact (Binding.free.inj hb).1.symm
      item := fun id hid => by omega }

/-- One more atom that is no variable leaves a store blank. -/
theorem Blank.push {s : TypeStore} (h : s.Blank) {a : Atom} (hv : ∀ id, a ≠ .var id)
    (hg : ∀ id, a ≠ .generic id) (hnew : s.handles[Node.atom a]? = none) :
    (s.push (.atom a)).Blank where
  wellFormed := by
    refine h.wellFormed.push ?_ hnew
    exact ⟨by simp [Node.args], fun _ _ => Node.noConfusion,
      fun id hid => absurd (Node.atom.inj hid) (hv id),
      fun id hid => absurd (Node.atom.inj hid) (hg id)⟩
  bindings := h.bindings
  node t := by
    rw [node_push]
    split
    · exact ⟨a, rfl, hv, hg⟩
    · exact h.node t

/-- So do several different ones. -/
theorem Blank.pushAll {s : TypeStore} (h : s.Blank) {atoms : List Atom}
    (hv : ∀ a ∈ atoms, (∀ id, a ≠ .var id) ∧ ∀ id, a ≠ .generic id) (hnodup : atoms.Nodup)
    (hnew : ∀ a ∈ atoms, s.handles[Node.atom a]? = none) :
    ((atoms.map Node.atom).foldl TypeStore.push s).Blank := by
  induction atoms generalizing s with
  | nil => exact h
  | cons a atoms ih =>
      obtain ⟨hnot, hrest⟩ := List.nodup_cons.mp hnodup
      obtain ⟨hva, hga⟩ := hv a List.mem_cons_self
      refine ih (h.push hva hga (hnew a List.mem_cons_self))
        (fun b hb => hv b (List.mem_cons_of_mem _ hb)) hrest fun b hb => ?_
      have hne : a ≠ b := fun heq => hnot (heq ▸ hb)
      have hhandles : (s.push (.atom a)).handles = s.handles.insert (.atom a) ⟨s.size⟩ := rfl
      rw [hhandles, Std.HashMap.getElem?_insert, if_neg (by simpa using hne)]
      exact hnew b (List.mem_cons_of_mem _ hb)

/-- The store that every run starts with is sound. -/
theorem new_sound : new.Sound := by
  have hbare : bare.Blank :=
    { wellFormed :=
        { args_lt := fun {t a} ha => by simp [TypeStore.node, bare, Node.args] at ha
          takes := fun {t f args} hf => by simp [TypeStore.node, bare] at hf
          summary_node := fun t => by simp [TypeStore.node, TypeStore.summary, bare, Node.summary]
          handle_iff := fun {n t} => by simp [bare, Has, size]
          var_lt := fun {t id} hid => by simp [TypeStore.node, bare] at hid
          generic_lt := fun {t id} hid => by simp [TypeStore.node, bare] at hid
          linked_has := fun {id t} hb => by simp [TypeStore.binding, bare] at hb }
      bindings := rfl
      node := fun t => ⟨.reserved t.index, by simp [TypeStore.node, bare], by simp, by simp⟩ }
  let atoms : List Atom := Primitive.all.map .prim ++
    (List.range (TypeId.reservedCount - Primitive.all.length)).map
      fun i => .reserved (i + Primitive.all.length)
  have hinitial : initialNodes = atoms.map Node.atom := by
    simp [initialNodes, atoms, Function.comp_def]
  have hsorts : ∀ a ∈ atoms, (∀ id, a ≠ .var id) ∧ ∀ id, a ≠ .generic id := by
    intro a ha
    rcases List.mem_append.mp ha with ha | ha
    · obtain ⟨p, -, rfl⟩ := List.mem_map.mp ha
      simp
    · obtain ⟨i, -, rfl⟩ := List.mem_map.mp ha
      simp
  have hblank := hbare.pushAll hsorts (by decide +kernel) fun a _ => by simp [bare]
  rw [new, hinitial]
  exact hblank.sound

/-- What a program can do to a store, checkpoints apart. -/
inductive Action where
  | ref (b : Borrow) (t : TypeId)
  | slice (t : TypeId)
  | array (t : TypeId) (length : Nat)
  | nominal (name : Symbol) (args : List TypeId)
  | object (traitName : Symbol)
  | param (position : Nat)
  | var
  | namedVar (name : Symbol)
  | generic (name : Symbol)
  | findRoot (t : TypeId)
  | expand (t : TypeId)
  | instantiate (t : TypeId) (args : List TypeId)
  | unify (a b : TypeId)

namespace Action

/-- Carry out an action.  What it answers is a type of the store, which later
actions may name. -/
def perform : Action → StateM TypeStore Unit
  | .ref b t => discard (refTo b t)
  | .slice t => discard (sliceOf t)
  | .array t length => discard (arrayOf t length)
  | .nominal name args => discard (nominalType name args)
  | .object traitName => discard (objectOf traitName)
  | .param position => discard (paramAt position)
  | .var => discard newVar
  | .namedVar name => discard (newNamedVar name)
  | .generic name => discard (newGeneric name)
  | .findRoot t => discard (TypeStore.findRoot t)
  | .expand t => discard (TypeStore.expand t)
  | .instantiate t args => discard (TypeStore.instantiate t args)
  | .unify a b => discard (TypeStore.unify a b)

/-- The types that an action names. -/
def types : Action → List TypeId
  | .ref _ t | .slice t | .array t _ | .findRoot t | .expand t => [t]
  | .nominal _ args => args
  | .object _ | .param _ | .var | .namedVar _ | .generic _ => []
  | .instantiate t args => t :: args
  | .unify a b => [a, b]

/-- **One step.**  An action on types of a sound store keeps it sound, and can be
undone under a checkpoint. -/
theorem perform_sound {s : TypeStore} (h : s.Sound) (a : Action) (ha : ∀ t ∈ a.types, s.Has t) :
    (a.perform.run s).2.Sound ∧ Logged s (a.perform.run s).2 ∧ Grows s (a.perform.run s).2 := by
  have hquiet : ∀ {s'}, Quiet s s' → s'.Sound ∧ Logged s s' ∧ Grows s s' := fun hq =>
    ⟨h.quiet hq, hq.logged, hq.grows⟩
  have hadds : ∀ (first : Nat → Binding) (mk : Nat → Atom),
      Binding.Begins s.variableCount (mk s.variableCount) (first s.variableCount) →
      let s' := ((addVariable first >>= fun id => intern (.atom (mk id))).run s).2
      s'.Sound ∧ Logged s s' ∧ Grows s s' := fun first mk hb => by
    have hadd := h.ordered.addVariable_run first mk hb
    exact ⟨h.addsVariable hadd hb, hadd.logged, hadd.keeps.grows⟩
  cases a with
  | ref b t => exact h.intern_sound (.app ha rfl) (by simp) (by simp)
  | slice t => exact h.intern_sound (.app ha rfl) (by simp) (by simp)
  | array t length => exact h.intern_sound (.app ha rfl) (by simp) (by simp)
  | nominal name args => exact h.intern_sound (.app ha trivial) (by simp) (by simp)
  | object traitName => exact h.intern_sound (.atom (by simp) (by simp)) (by simp) (by simp)
  | param position => exact h.intern_sound (.atom (by simp) (by simp)) (by simp) (by simp)
  | var => exact hadds (.free · none) .var (.inl ⟨none, rfl, rfl⟩)
  | namedVar name => exact hadds (.free · (some name)) .var (.inl ⟨some name, rfl, rfl⟩)
  | generic name => exact hadds (fun _ => .generic name) .generic (.inr ⟨name, rfl, rfl⟩)
  | findRoot t => exact hquiet (h.ordered.findRoot_quiet t).2
  | expand t => exact hquiet (h.ordered.expand_run (ha t List.mem_cons_self)).1
  | instantiate t args =>
      exact hquiet (h.ordered.instantiate_run (fun u hu => ha u (List.mem_cons_of_mem _ hu))
        (ha t List.mem_cons_self)).1
  | unify t u =>
      obtain ⟨hsound, hbinds⟩ := h.unify_sound (ha t (by simp [types])) (ha u (by simp [types]))
      exact ⟨hsound, hbinds.logged, hbinds.toExtends.grows⟩

end Action

/-- The stores that a program can reach, with the checkpoints that are open
then, the innermost first. -/
inductive Reached : List Checkpoint → TypeStore → Prop where
  | new : Reached [] new
  | act {checkpoints : List Checkpoint} {s : TypeStore} (a : Action)
      (h : Reached checkpoints s) (ha : ∀ t ∈ a.types, s.Has t) :
      Reached checkpoints (a.perform.run s).2
  | checkpoint {checkpoints : List Checkpoint} {s : TypeStore} (h : Reached checkpoints s) :
      Reached ((checkpoint.run s).1 :: checkpoints) (checkpoint.run s).2
  | revert {checkpoints : List Checkpoint} {s : TypeStore} {c : Checkpoint}
      (h : Reached (c :: checkpoints) s) : Reached checkpoints ((revert c).run s).2
  | keep {checkpoints : List Checkpoint} {s : TypeStore} {c : Checkpoint}
      (h : Reached (c :: checkpoints) s) : Reached checkpoints ((keep c).run s).2

/-- Whether each action in a row names types that are there when it is carried out, with
those that the actions before it have made. -/
def Action.allNamed : List Action → TypeStore → Bool
  | [], _ => true
  | a :: rest, s => a.types.all (·.index < s.size) && allNamed rest (a.perform.run s).2

/-- A program that is one row of actions reaches the store at its end. -/
theorem Reached.acts {checkpoints : List Checkpoint} {s : TypeStore} {actions : List Action}
    (h : Reached checkpoints s) (hnamed : Action.allNamed actions s = true) :
    Reached checkpoints (actions.foldl (fun s a => (a.perform.run s).2) s) := by
  induction actions generalizing s with
  | nil => exact h
  | cons a rest ih =>
      obtain ⟨hfirst, hrest⟩ := Bool.and_eq_true_iff.mp hnamed
      exact ih (h.act a fun t ht => of_decide_eq_true (List.all_eq_true.mp hfirst t ht)) hrest

/-- For every open checkpoint there was a sound store, and the work since then
can be undone. -/
def Backed : List Checkpoint → TypeStore → Prop
  | [], s => s.openCheckpoints = 0
  | c :: rest, s => ∃ past : TypeStore, past.Sound ∧ Backed rest past ∧
      c = ⟨past.trail.length⟩ ∧ Logged past.opened s ∧ Grows past s

namespace Backed

variable {s s' : TypeStore} {checkpoints : List Checkpoint}

/-- Work that can be undone leaves the open checkpoints as they are. -/
theorem step (h : Backed checkpoints s) (hl : Logged s s') (hg : Grows s s') :
    Backed checkpoints s' := by
  cases checkpoints with
  | nil => exact hl.opens.trans h
  | cons c rest =>
      obtain ⟨past, hsound, hrest, hmark, hlogged, hgrows⟩ := h
      have hopened : Grows past.opened s :=
        ⟨hgrows.size_le, hgrows.count_le, hgrows.node_eq, hgrows.summary_eq⟩
      exact ⟨past, hsound, hrest, hmark, hlogged.trans hl hopened hg, hgrows.trans hg⟩

/-- What was done under a checkpoint that is kept can be undone by an outer
one. -/
theorem keep_logged {past : TypeStore} (hl : Logged past.opened s) :
    Logged past ((keep ⟨past.trail.length⟩).run s).2 := by
  obtain ⟨new, htrail, hundo⟩ := hl.opened (Nat.succ_pos _)
  replace htrail : s.trail = new ++ past.trail := htrail
  have hopens : s.openCheckpoints - 1 = past.openCheckpoints := by
    have hopened : s.openCheckpoints = past.openCheckpoints + 1 := hl.opens
    omega
  have hrun : ((keep ⟨past.trail.length⟩).run s).2 =
      { s with
        trail := if s.openCheckpoints - 1 = 0 then s.trailBefore ⟨past.trail.length⟩ else s.trail
        openCheckpoints := s.openCheckpoints - 1 } := rfl
  rw [hrun, hopens]
  refine ⟨rfl, fun h0 => ?_, fun h0 => ⟨new, ?_, hundo.bounds, hundo.old, hundo.born⟩⟩
  · have hlen : s.trail.length - past.trail.length = new.length := by simp [htrail]
    simp only [h0, if_true, trailBefore, hlen]
    simp [htrail]
  · simp [Nat.ne_of_gt h0, htrail]

end Backed

/-- **Every reached store is sound**, and every open checkpoint can be reverted. -/
theorem Reached.sound_backed {checkpoints : List Checkpoint} {s : TypeStore}
    (h : Reached checkpoints s) : s.Sound ∧ Backed checkpoints s := by
  induction h with
  | new => exact ⟨new_sound, rfl⟩
  | act a _ ha ih =>
      obtain ⟨hsound, hlogged, hgrows⟩ := a.perform_sound ih.1 ha
      exact ⟨hsound, ih.2.step hlogged hgrows⟩
  | @checkpoint _ s _ ih =>
      exact ⟨ih.1.congr rfl rfl rfl, s, ih.1, ih.2, rfl, .refl _, .of_entries_eq rfl (Nat.le_refl _)⟩
  | @revert _ s c _ ih =>
      obtain ⟨hsound, past, hpast, hrest, rfl, hlogged, hgrows⟩ := ih
      have hreverts := revert_run hlogged hgrows
      exact ⟨hpast.reverts hsound hgrows hreverts, hrest.step hreverts.logged (hreverts.grows hgrows)⟩
  | @keep _ s c _ ih =>
      obtain ⟨hsound, past, hpast, hrest, rfl, hlogged, hgrows⟩ := ih
      exact ⟨hsound.congr rfl rfl rfl, hrest.step (Backed.keep_logged hlogged)
        (hgrows.trans (.of_entries_eq rfl (Nat.le_refl _)))⟩

/-- **Every reached store is sound.** -/
theorem Reached.sound {checkpoints : List Checkpoint} {s : TypeStore}
    (h : Reached checkpoints s) : s.Sound :=
  h.sound_backed.1

/-- Every reached store has grown out of the new one. -/
theorem Reached.grows {checkpoints : List Checkpoint} {s : TypeStore} (h : Reached checkpoints s) :
    Grows TypeStore.new s := by
  induction h with
  | new => exact .refl _
  | act a h ha ih => exact ih.trans (a.perform_sound h.sound ha).2.2
  | checkpoint _ ih => exact ih.trans (.of_entries_eq rfl (Nat.le_refl _))
  | @revert _ s c h ih =>
      obtain ⟨-, past, -, -, rfl, hlogged, hgrows⟩ := h.sound_backed
      have hreverts := revert_run hlogged hgrows
      exact ih.trans (.of_entries_eq hreverts.entries (Nat.le_of_eq hreverts.count.symm))
  | keep _ ih => exact ih.trans (.of_entries_eq rfl (Nat.le_refl _))

section Primitives

variable {checkpoints : List Checkpoint} {s : TypeStore}

/-- The primitive types keep the handles that they have in the new store. -/
theorem Reached.node_primitive (h : Reached checkpoints s) (p : Primitive) :
    s.Has (.ofPrimitive p) ∧ s.node (.ofPrimitive p) = .atom (.prim p) := by
  have hnew : TypeStore.new.Has (.ofPrimitive p) ∧
      TypeStore.new.node (.ofPrimitive p) = .atom (.prim p) := by
    cases p <;> decide
  exact ⟨h.grows.has hnew.1, (h.grows.node_eq hnew.1).trans hnew.2⟩

theorem Reached.reads_primitive (h : Reached checkpoints s) (p : Primitive) :
    s.Reads (.atom (.prim p)) (.ofPrimitive p) :=
  ⟨(h.node_primitive p).1, WellFormed.written_of_atom (h.node_primitive p).2⟩

theorem Reached.meaning_primitive (h : Reached checkpoints s) (p : Primitive) :
    s.meaning (.ofPrimitive p) = .atom (.prim p) := by
  have hnode := (h.node_primitive p).2
  exact meaning_of_atom (by rw [root_of_no_link (by simp [link?, hnode]), hnode])

end Primitives

/-- Making a parameter reaches another store, which has the parameter. -/
theorem Reached.paramAt_run {checkpoints : List Checkpoint} {s : TypeStore}
    (h : Reached checkpoints s) (position : Nat) :
    let r := (paramAt position).run s
    Reached checkpoints r.2 ∧ Adds s r.2 ∧ r.2.Has r.1 ∧ r.2.node r.1 = .atom (.param position) := by
  have hadmits : s.Admits (.atom (.param position)) := .atom (by simp) (by simp)
  exact ⟨h.act (.param position) (by simp [Action.types]),
    (h.sound.wellFormed.intern_run hadmits).2⟩

/-- Making a nominal type reaches another store, which has the type. -/
theorem Reached.nominalType_run {checkpoints : List Checkpoint} {s : TypeStore}
    (h : Reached checkpoints s) (name : Symbol) {args : List TypeId} (hargs : ∀ a ∈ args, s.Has a) :
    let r := (nominalType name args).run s
    Reached checkpoints r.2 ∧ Quiet s r.2 ∧ Adds s r.2 ∧ r.2.Has r.1 ∧
      r.2.node r.1 = .app (.nominal name) args :=
  ⟨h.act (.nominal name args) hargs, h.sound.ordered.intern_quiet hargs trivial⟩

/-- A new nominal type means its name around what its arguments meant before. -/
theorem Reached.meaning_nominalType {checkpoints : List Checkpoint} {s : TypeStore}
    (h : Reached checkpoints s) (name : Symbol) {args : List TypeId} (hargs : ∀ a ∈ args, s.Has a) :
    let r := (nominalType name args).run s
    r.2.meaning r.1 = .app (.nominal name) (args.map s.meaning) := by
  intro r
  obtain ⟨hreached, hq, -, -, hnode⟩ := h.nominalType_run name hargs
  rw [hreached.sound.ordered.meaning_of_app (root_of_no_link (link?_of_app hnode) ▸ hnode),
    List.map_congr_left fun a ha => hq.meaning_eq (hargs a ha)]

/-- Types with the same meaning are expanded to the same handle. -/
theorem Ordered.expand_eq_of_meaning_eq {s : TypeStore} (h : s.Ordered) {a b : TypeId}
    (ha : s.Has a) (hb : s.Has b) (heq : s.meaning a = s.meaning b) :
    ((expand a).run s).1 = ((expand b).run ((expand a).run s).2).1 := by
  obtain ⟨hq, hreads⟩ := h.expand_run ha
  obtain ⟨hq', hreads'⟩ := hq.finish.expand_run (hq.has hb)
  rw [hq.meaning_eq hb, ← heq] at hreads'
  have hlater := hq'.reads hreads
  exact hq'.finish.wellFormed.written_injective hlater.1 hreads'.1 (hlater.2.trans hreads'.2.symm)

/-- **Unification is sound and most general.**  In every reached store, two types
whose meanings contain neither an error nor a parameter unify exactly when some
assignment makes their meanings equal.  When they do, both are expanded to the
same handle, the links of before are kept, and the new links say no more than
that the two are equal. -/
theorem Reached.unify_mostGeneral {checkpoints : List Checkpoint} {s : TypeStore}
    (h : Reached checkpoints s) {a b : TypeId} (ha : s.Has a) (hb : s.Has b)
    (hpa : (s.meaning a).Proper) (hpb : (s.meaning b).Proper) :
    let r := (unify a b).run s
    (r.1 = .ok () ↔ ∃ σ : Assignment, (s.meaning a).subst σ = (s.meaning b).subst σ) ∧
      (r.1 = .ok () →
        ((expand a).run r.2).1 = ((expand b).run ((expand a).run r.2).2).1 ∧
        Extends s r.2 ∧
        ∀ σ, r.2.Allows σ ↔ s.Allows σ ∧ s.value σ a = s.value σ b) := by
  have hs := h.sound
  have hca : s.Clean a := (hs.clean_iff a).mpr hpa
  have hcb : s.Clean b := (hs.clean_iff b).mpr hpb
  obtain ⟨hs', hbinds⟩ := hs.unify_sound ha hb
  refine ⟨hs.unify_ok_iff ha hb hca hcb, fun hok => ?_⟩
  have hallows := hs.allows_of_unify_ok ha hb hca hcb hok
  refine ⟨?_, hbinds.toExtends, hallows⟩
  refine hs'.ordered.expand_eq_of_meaning_eq (hbinds.has_iff.mpr ha) (hbinds.has_iff.mpr hb) ?_
  refine hs'.ordered.meaning_eq_of_value_eq fun σ hσ => ?_
  rw [value_congr hbinds.entries]
  exact ((hallows σ).mp hσ).2

/-- A new variable unifies with a primitive type. -/
theorem unify_newVar_primitive :
    ((unify (newVar.run new).1 (.ofPrimitive .i32)).run (newVar.run new).2).1 = .ok () := by
  have hreached : Reached [] (newVar.run new).2 := Reached.act .var .new (by simp [Action.types])
  obtain ⟨-, hadd⟩ := new_sound.ordered.newVar_run
  have hvar : (newVar.run new).2.meaning (newVar.run new).1 = .atom (.var 0) := by
    refine meaning_of_atom ?_
    rw [root_of_no_link, hadd.node]
    · rfl
    · rw [link?_eq_none]
      intro id u hn hb
      have hbind := hadd.binding
      rw [hadd.node] at hn
      obtain rfl : new.variableCount = id := by simpa using hn
      rw [hbind] at hb
      cases hb
  have hmeaning := hreached.meaning_primitive .i32
  refine (hreached.unify_mostGeneral hadd.has (hreached.node_primitive .i32).1 ?_ ?_).1.mpr ?_
  · simp [hvar, Tree.Proper, Atom.IsError, Atom.IsParam]
  · simp [hmeaning, Tree.Proper, Atom.IsError, Atom.IsParam]
  · exact ⟨fun _ => .atom (.prim .i32), by simp [hvar, hmeaning, Tree.subst]⟩

end DotCall.TypeStore
