import DotCall.Proofs.ReachedStores
import DotCall.Proofs.RecursionDepth

/-!
# Types stay what they are

Whatever is done to a store, types are only added to it, and what a handle stands for
never changes.  This holds of every store that work of any kind leads to.  Types may be
carried over from any other such store, and any checkpoint may be reverted or kept, in
any order and as often as one likes; nothing is asked of the links, which may then run
in circles.

What carries the argument is that a store is `Intact`: it is well-formed, and so is
what reverting would put back.  Every operation keeps it intact and only adds to it
(`Safely`), so both hold along every `Run`.
-/

namespace DotCall

/-- Every former has a number of arguments that it can have. -/
inductive Tree.Formed : Tree → Prop where
  | atom (a : Atom) : Formed (.atom a)
  | app {f : Former} {ts : List Tree} (htakes : f.Takes ts.length) (hts : ∀ t ∈ ts, Formed t) :
      Formed (.app f ts)

/-- What putting a trail back gives a variable was its binding or is on the trail. -/
theorem TrailEntry.restored_cases (trail : List TrailEntry) (var : Nat) (b : Binding) :
    restored trail var b = b ∨ ∃ e ∈ trail, restored trail var b = e.before := by
  induction trail generalizing b with
  | nil => exact .inl rfl
  | cons e rest ih =>
      rw [restored_cons]
      rcases ih (if e.var = var then e.before else b) with h | ⟨e', he', h⟩
      · split at h
        · exact .inr ⟨e, List.mem_cons_self, by simp [*]⟩
        · exact .inl (by simp [*])
      · exact .inr ⟨e', List.mem_cons_of_mem _ he', h⟩

namespace TypeStore

/-- The tree of a handle has formers with the right numbers of arguments, however
deep and through whatever links it is read. -/
theorem WellFormed.treeWithin_formed {s : TypeStore} (h : s.WellFormed) (read : TypeId → TypeId)
    (n : Nat) (t : TypeId) : (s.treeWithin read n t).Formed := by
  induction n generalizing t with
  | zero => exact .atom _
  | succ n ih =>
      rw [treeWithin]
      cases hn : s.node (read t) with
      | atom a => exact .atom a
      | app f args =>
          refine .app ?_ fun u hu => ?_
          · simpa using h.takes hn
          · obtain ⟨a, -, rfl⟩ := List.mem_map.mp hu
            exact ih a

/-- A well-formed store; links that reverting would put back lead into it, too. -/
structure Intact (s : TypeStore) : Prop where
  wellFormed : s.WellFormed
  trail_has : ∀ {e t}, e ∈ s.trail → e.before = .linked t → s.Has t

/-- The first store is intact. -/
theorem new_intact : new.Intact where
  wellFormed := new_sound.wellFormed
  trail_has {e _} he := by
    have htrail : ∀ (nodes : List Node) (s : TypeStore), (nodes.foldl push s).trail = s.trail := by
      intro nodes
      induction nodes with
      | nil => exact fun _ => rfl
      | cons n nodes ih => exact fun s => ih (s.push n)
    have hempty : new.trail = [] := htrail initialNodes bare
    simp [hempty] at he

/-- A change of bindings that leads into the store leaves it intact. -/
theorem Intact.rebind {s s' : TypeStore} (h : s.Intact) (he : s'.entries = s.entries)
    (hh : s'.handles = s.handles) (hc : s.variableCount ≤ s'.variableCount)
    (hb : ∀ {id t}, s'.binding id = .linked t → s.Has t)
    (htrail : ∀ {e t}, e ∈ s'.trail → e.before = .linked t → s.Has t) : s'.Intact where
  wellFormed := h.wellFormed.rebind he hh hc hb
  trail_has hmem hlinked := (has_congr he).mpr (htrail hmem hlinked)

/-- Run at `s`, the action leaves the store intact, only adds to it, and its answer
satisfies `Q`. -/
def Safely {α : Type} (s : TypeStore) (m : StateM TypeStore α) (Q : TypeStore → α → Prop) : Prop :=
  (m.run s).2.Intact ∧ Grows s (m.run s).2 ∧ Q (m.run s).2 (m.run s).1

namespace Safely

variable {α β : Type} {s : TypeStore} {m : StateM TypeStore α} {Q Q' : TypeStore → α → Prop}
  {R : TypeStore → β → Prop}

theorem pure (hs : s.Intact) {a : α} (h : Q s a) : Safely s (pure a) Q := ⟨hs, .refl s, h⟩

/-- Safe actions in sequence are safe, when the second is safe at every intact store that
the first may leave. -/
theorem bind {f : α → StateM TypeStore β} (hm : Safely s m Q)
    (hf : ∀ x a, x.Intact → Grows s x → Q x a → Safely x (f a) R) : Safely s (m >>= f) R := by
  obtain ⟨hi, hg, hq⟩ := hm
  obtain ⟨hi', hg', hr⟩ := hf _ _ hi hg hq
  exact ⟨hi', hg.trans hg', hr⟩

theorem get {f : TypeStore → StateM TypeStore β} (hf : Safely s (f s) R) :
    Safely s (get >>= f) R := hf

theorem imp (h : Safely s m Q) (hQ : ∀ x a, Q x a → Q' x a) : Safely s m Q' :=
  ⟨h.1, h.2.1, hQ _ _ h.2.2⟩

theorem discard (h : Safely s m Q) : Safely s (discard m) fun _ _ => True :=
  ⟨h.1, h.2.1, trivial⟩

/-- Each element in turn gives a type of the store. -/
theorem mapM {f : α → StateM TypeStore TypeId} {xs : List α} (hs : s.Intact)
    (hf : ∀ a ∈ xs, ∀ x, x.Intact → Grows s x → Safely x (f a) fun y t => y.Has t) :
    Safely s (xs.mapM f) fun y ts => ts.length = xs.length ∧ ∀ t ∈ ts, y.Has t := by
  induction xs generalizing s with
  | nil => exact .pure hs (by simp)
  | cons a xs ih =>
      rw [List.mapM_cons]
      refine (hf a List.mem_cons_self s hs (.refl s)).bind fun x t hx hg ht => ?_
      refine (ih hx fun b hb y hy hgy => ?_).bind fun y ts hy hgy hts => ?_
      · exact hf b (List.mem_cons_of_mem _ hb) y hy (hg.trans hgy)
      · refine .pure hy ⟨by simp [hts.1], ?_⟩
        exact List.forall_mem_cons.mpr ⟨hgy.has ht, hts.2⟩

end Safely

/-- What is left to be done is about types of the store. -/
def Covers (s : TypeStore) : Comparison → Prop
  | .equal | .clash _ => True
  | .assign _ target => s.Has target
  | .parts equations => ∀ e ∈ equations, s.Poses e

namespace Intact

variable {s : TypeStore} {t : TypeId}

/-- Interning an admitted node is safe and gives a handle for this node. -/
theorem intern_safely (h : s.Intact) {n : Node} (hn : s.Admits n) :
    Safely s (intern n) fun x t => x.Has t ∧ x.node t = n := by
  obtain ⟨hwf, hadds, hhas⟩ := h.wellFormed.intern_run hn
  refine ⟨⟨hwf, fun he hlinked => ?_⟩, hadds.grows, hhas⟩
  rw [hadds.trail] at he
  exact hadds.grows.has (h.trail_has he hlinked)

/-- A former around types of the store. -/
theorem app_safely (h : s.Intact) {f : Former} {args : List TypeId} (hargs : ∀ a ∈ args, s.Has a)
    (htakes : f.Takes args.length) :
    Safely s (intern (.app f args)) fun x t => x.Has t ∧ x.node t = .app f args :=
  h.intern_safely (.app hargs htakes)

/-- An atom whose variable, if it is one, the store has. -/
theorem atom_safely (h : s.Intact) {a : Atom} (hv : ∀ id, a = .var id → id < s.variableCount)
    (hg : ∀ id, a = .generic id → id < s.variableCount) :
    Safely s (intern (.atom a)) fun x t => x.Has t ∧ x.node t = .atom a :=
  h.intern_safely (.atom hv hg)

/-- A new variable of either sort, which begins without a link. -/
theorem addVariable_safely (h : s.Intact) (first : Nat → Binding) (mk : Nat → Atom)
    (hfirst : ∀ t, first s.variableCount ≠ .linked t)
    (hmk : mk s.variableCount = .var s.variableCount ∨
      mk s.variableCount = .generic s.variableCount) :
    Safely s (addVariable first >>= fun id => intern (.atom (mk id))) fun x t => x.Has t := by
  have hmade : Safely s (addVariable first) fun x id =>
      id = s.variableCount ∧ id < x.variableCount := by
    have hrun : (addVariable first).run s =
        (s.variableCount, s.withVariable (first s.variableCount)) := rfl
    unfold Safely
    rw [hrun]
    refine ⟨h.rebind rfl rfl withVariable_grows.count_le (fun {id t} hb => ?_) h.trail_has,
      withVariable_grows, rfl, Nat.lt_of_lt_of_eq (Nat.lt_succ_self _) withVariable_count.symm⟩
    rw [withVariable_binding] at hb
    split at hb
    · exact absurd hb (hfirst t)
    · exact h.wellFormed.linked_has hb
  refine hmade.bind fun x id hx _ hid => ?_
  obtain ⟨rfl, hlt⟩ := hid
  refine (hx.atom_safely ?_ ?_).imp fun _ _ ht => ht.1
  · intro i hi
    rcases hmk with hm | hm <;> grind
  · intro i hi
    rcases hmk with hm | hm <;> grind

theorem newVar_safely (h : s.Intact) : Safely s newVar fun x t => x.Has t :=
  h.addVariable_safely (.free · none) .var (by simp) (.inl rfl)

/-- Any binding will do that does not lead out of the store. -/
theorem assign_safely (h : s.Intact) (id : Nat) {b : Binding}
    (hlinked : ∀ t, b = .linked t → s.Has t) : Safely s (assign id b) fun _ _ => True := by
  refine ⟨h.rebind rfl rfl (Nat.le_of_eq assigned_count.symm) (fun {v u} hb => ?_)
    (fun {e u} he hbefore => ?_), assigned_grows, trivial⟩
  · by_cases hid : id < s.variableCount
    · have hread := assigned_binding (b := b) (v := v) hid
      rw [assigned] at hread
      rw [hread] at hb
      split at hb
      · exact hlinked u hb
      · exact h.wellFormed.linked_has hb
    · have hsame : s.bindings.setIfInBounds id b = s.bindings :=
        Array.setIfInBounds_eq_of_size_le (Nat.le_of_not_lt hid)
      simp only [binding, assign_run, hsame] at hb
      exact h.wellFormed.linked_has hb
  · rw [assign_run] at he
    dsimp only at he
    split at he
    · rcases List.mem_cons.mp he with rfl | he
      · exact h.wellFormed.linked_has hbefore
      · exact h.trail_has he hbefore
    · exact h.trail_has he hbefore

/-- Finding a root is safe, whether or not links run in a circle. -/
theorem findRootWithin_safely (h : s.Intact) (n : Nat) (ht : s.Has t) :
    Safely s (findRootWithin n t) fun x u => x.Has u := by
  induction n generalizing t with
  | zero => exact .pure h ht
  | succ n ih =>
      rw [findRootWithin]
      refine .get ?_
      split
      · exact .pure h ht
      · next id target hl =>
          have htarget : s.Has target := h.wellFormed.linked_has (link?_eq_some.mp hl).2
          refine (ih htarget).bind fun x last hx hg hlast => ?_
          split
          · refine (hx.assign_safely id (by simpa using hlast)).bind fun y _ hy hgy _ => ?_
            exact .pure hy (hgy.has hlast)
          · exact .pure hx hlast

theorem findRoot_safely (h : s.Intact) (ht : s.Has t) :
    Safely s (findRoot t) fun x u => x.Has u :=
  h.findRootWithin_safely s.size ht

/-- A former around parts that are made in turn, one for each argument it had. -/
theorem rebuild_safely (h : s.Intact) {f : Former} {args : List TypeId}
    {one : TypeId → StateM TypeStore TypeId} (htakes : f.Takes args.length)
    (hone : ∀ a ∈ args, ∀ x, x.Intact → Grows s x → Safely x (one a) fun y u => y.Has u) :
    Safely s (args.mapM one >>= fun parts => intern (.app f parts)) fun x u => x.Has u := by
  refine (Safely.mapM h hone).bind fun x parts hx _ hparts => ?_
  refine (hx.app_safely hparts.2 ?_).imp fun _ _ hu => hu.1
  rw [hparts.1]
  exact htakes

/-- Expanding is safe with any bound on the depth. -/
theorem expandWithin_safely (h : s.Intact) (n : Nat) (ht : s.Has t) :
    Safely s (expandWithin n t) fun x u => x.Has u := by
  induction n generalizing s t with
  | zero => exact .pure h ht
  | succ n ih =>
      rw [expandWithin]
      refine .get ?_
      split
      · refine (h.findRoot_safely ht).bind fun x u hx _ hu => .get ?_
        split
        · exact .pure hx hu
        · next f args hn =>
            refine hx.rebuild_safely (hx.wellFormed.takes hn) fun a ha y hy hg => ?_
            have harg : a ∈ (x.node u).args := by simpa [hn, Node.args] using ha
            exact ih hy (hg.has (hx.wellFormed.has_arg harg))
      · exact .pure h ht

/-- Instantiating is safe with any bound on the depth. -/
theorem instantiateWithin_safely (h : s.Intact) {args : List TypeId} (hargs : ∀ a ∈ args, s.Has a)
    (n : Nat) (ht : s.Has t) : Safely s (instantiateWithin args n t) fun x u => x.Has u := by
  induction n generalizing s t with
  | zero => exact .pure h ht
  | succ n ih =>
      rw [instantiateWithin]
      refine .get ?_
      split
      · refine .get ?_
        split
        · next position _ =>
            refine .pure h ?_
            cases harg : args[position]? with
            | none => exact ht
            | some a => exact hargs a (List.mem_of_getElem? harg)
        · exact .pure h ht
        · next f parts hn =>
            refine h.rebuild_safely (h.wellFormed.takes hn) fun a ha x hx hg => ?_
            refine ih hx (fun b hb => hg.has (hargs b hb)) (hg.has ?_)
            exact h.wellFormed.has_arg (t := t) (by simpa [hn, Node.args] using ha)
      · exact .pure h ht

/-- What a comparison of types of the store leaves to be done is about such types. -/
theorem compareVar_covers (h : s.Intact) {v : Nat} {t : TypeId} (ht : s.Has t)
    (position : Position) : s.Covers (s.compareVar v t position) := by
  unfold compareVar
  split
  · trivial
  split
  · exact ht
  · next target hb =>
      have htarget : s.Has target := h.wellFormed.linked_has hb
      simpa [Covers, Poses] using ⟨htarget, ht⟩
  · trivial

/-- Comparing the outermost layers leaves only equations between types of the store. -/
theorem compareLayers_covers (h : s.Intact) (a b : TypeId) (position : Position) :
    s.Covers (s.compareLayers a b position) := by
  unfold compareLayers
  split
  · split <;> trivial
  · next f left g right hna hnb =>
      split
      · split
        · intro e he
          obtain ⟨hl, hr⟩ := mem_argEquations he
          exact ⟨h.wellFormed.has_arg (t := a) (by simpa [hna, Node.args] using hl),
            h.wellFormed.has_arg (t := b) (by simpa [hnb, Node.args] using hr)⟩
        · trivial
      · split <;> trivial
  · trivial

/-- So does comparing any two types of the store. -/
theorem compare_covers (h : s.Intact) {a b : TypeId} (ha : s.Has a) (hb : s.Has b)
    (position : Position) : s.Covers (s.compare a b position) := by
  unfold compare
  split
  · trivial
  split
  · trivial
  split
  · trivial
  split
  · trivial
  split
  · exact h.compareVar_covers hb position
  · exact h.compareVar_covers ha position
  · trivial
  · trivial
  · trivial
  · exact h.compareLayers_covers a b position

/-- A row of equations is safe when each of them is, wherever it fails. -/
theorem unifyEach_safely {one : Equation → StateM TypeStore (Except Clash Unit)}
    (hone : ∀ x : TypeStore, x.Intact → ∀ e, x.Poses e → Safely x (one e) fun _ _ => True)
    (h : s.Intact) {equations : List Equation} (he : ∀ e ∈ equations, s.Poses e) :
    Safely s (unifyEach one equations) fun _ _ => True := by
  induction equations generalizing s with
  | nil => exact .pure h trivial
  | cons e rest ih =>
      rw [unifyEach]
      refine (hone s h e (he e List.mem_cons_self)).bind fun x _ hx hg _ => ?_
      split
      · refine ih hx fun e' he' => ?_
        obtain ⟨hl, hr⟩ := he e' (List.mem_cons_of_mem _ he')
        exact ⟨hg.has hl, hg.has hr⟩
      · exact .pure hx trivial

/-- Unification only links variables to types of the store, also when it fails. -/
theorem unifyWithin_safely (h : s.Intact) (n : Nat) {e : Equation} (he : s.Poses e) :
    Safely s (unifyWithin n e) fun _ _ => True := by
  induction n generalizing s e with
  | zero => exact .pure h trivial
  | succ n ih =>
      rw [unifyWithin]
      split
      · exact .pure h trivial
      refine (h.findRoot_safely he.1).bind fun x a hx hg ha => ?_
      refine (hx.findRoot_safely (hg.has he.2)).bind fun y b hy hgy hb => .get ?_
      have hcovers := hy.compare_covers (hgy.has ha) hb e.position
      split
      · exact .pure hy trivial
      · exact .pure hy trivial
      · next var target hc =>
          rw [hc] at hcovers
          exact (hy.assign_safely var (by simpa [Covers] using hcovers)).bind fun z _ hz _ _ => .pure hz trivial
      · next equations hc =>
          rw [hc] at hcovers
          exact unifyEach_safely (fun z hz e' he' => ih hz he') hy hcovers

/-- Adopting a variable is safe. -/
theorem adoptVariable_safely (h : s.Intact) {a : Atom} {id : Nat}
    (ha : a = .var id ∨ a = .generic id) :
    Safely s (adoptVariable a id) fun x t => x.Has t := by
  unfold adoptVariable
  refine .get ?_
  split
  · next hlt =>
      refine (h.atom_safely ?_ ?_).imp fun _ _ ht => ht.1
      · rintro i rfl
        rcases ha with hi | hi <;> cases hi
        exact hlt
      · rintro i rfl
        rcases ha with hi | hi <;> cases hi
        exact hlt
  · exact h.newVar_safely

/-- Building a formed tree is safe. -/
theorem build_safely (h : s.Intact) {tree : Tree} (ht : tree.Formed) :
    Safely s (build tree) fun x t => x.Has t := by
  induction ht generalizing s with
  | atom a =>
      cases a with
      | var id => exact h.adoptVariable_safely (.inl rfl)
      | generic id => exact h.adoptVariable_safely (.inr rfl)
      | _ => exact (h.atom_safely (by simp) (by simp)).imp fun _ _ ht => ht.1
  | @app f ts htakes _ ih =>
      rw [build_app]
      refine (Safely.mapM h fun t ht x hx _ => ih t ht hx).bind fun x parts hx _ hparts => ?_
      refine (hx.app_safely hparts.2 ?_).imp fun _ _ hu => hu.1
      rw [hparts.1]
      exact htakes

theorem checkpoint_safely (h : s.Intact) : Safely s checkpoint fun _ _ => True :=
  ⟨h.rebind rfl rfl (Nat.le_refl _) h.wellFormed.linked_has h.trail_has,
    .of_entries_eq rfl (Nat.le_refl _), trivial⟩

/-- Reverting is safe: bindings change, and types stay. -/
theorem revert_safely (h : s.Intact) (c : Checkpoint) : Safely s (revert c) fun _ _ => True := by
  have hcount : ((revert c).run s).2.variableCount = s.variableCount :=
    TrailEntry.restore_size s.bindings
  refine ⟨h.rebind rfl rfl (Nat.le_of_eq hcount.symm) (fun {id t} hb => ?_)
    (fun he => h.trail_has (List.mem_of_mem_drop he)),
    .of_entries_eq rfl (Nat.le_of_eq hcount.symm), trivial⟩
  have hread : ((revert c).run s).2.binding id =
      (TrailEntry.restore (s.trailSince c) s.bindings)[id]?.getD (.free id none) := rfl
  rw [hread, TrailEntry.restore_getElem?] at hb
  cases hold : s.bindings[id]? with
  | none => simp [hold] at hb
  | some b =>
      simp only [hold, Option.map_some, Option.getD_some] at hb
      rcases TrailEntry.restored_cases (s.trailSince c) id b with heq | ⟨e, he, heq⟩
      · have hlinked : s.binding id = .linked t := by
          simpa [binding, hold] using heq.symm.trans hb
        exact h.wellFormed.linked_has hlinked
      · exact h.trail_has (List.mem_of_mem_take he) (heq.symm.trans hb)

theorem keep_safely (h : s.Intact) (c : Checkpoint) : Safely s (keep c) fun _ _ => True := by
  refine ⟨h.rebind rfl rfl (Nat.le_refl _) h.wellFormed.linked_has (fun {e t} he hlinked => ?_),
    .of_entries_eq rfl (Nat.le_refl _), trivial⟩
  have htrail : ((keep c).run s).2.trail =
      if s.openCheckpoints - 1 = 0 then s.trailBefore c else s.trail := rfl
  rw [htrail] at he
  split at he
  · exact h.trail_has (List.mem_of_mem_drop he) hlinked
  · exact h.trail_has he hlinked

end Intact

/-- **One action** on types of an intact store leaves it intact and only adds to it. -/
theorem Action.perform_safely {s : TypeStore} (h : s.Intact) (a : Action)
    (ha : ∀ t ∈ a.types, s.Has t) : Safely s a.perform fun _ _ => True := by
  cases a with
  | ref b t => exact .discard (h.app_safely ha rfl)
  | slice t => exact .discard (h.app_safely ha rfl)
  | array t length => exact .discard (h.app_safely ha rfl)
  | nominal name args => exact .discard (h.app_safely ha trivial)
  | object traitName => exact .discard (h.atom_safely (by simp) (by simp))
  | param position => exact .discard (h.atom_safely (by simp) (by simp))
  | var => exact .discard h.newVar_safely
  | namedVar name =>
      exact .discard (h.addVariable_safely (.free · (some name)) .var (by simp) (.inl rfl))
  | generic name =>
      exact .discard (h.addVariable_safely (fun _ => .generic name) .generic (by simp) (.inr rfl))
  | findRoot t => exact .discard (h.findRoot_safely (ha t List.mem_cons_self))
  | expand t => exact .discard (h.expandWithin_safely (s.size + 1) (ha t List.mem_cons_self))
  | instantiate t args =>
      have hargs : ∀ u ∈ args, s.Has u := fun u hu => ha u (List.mem_cons_of_mem _ hu)
      exact .discard (h.instantiateWithin_safely hargs (t.index + 1) (ha t List.mem_cons_self))
  | unify t u =>
      have hposes : s.Poses ⟨t, u, .whole⟩ := ⟨ha t (by simp [types]), ha u (by simp [types])⟩
      have hunify : Safely s (TypeStore.unify t u) fun _ _ => True :=
        h.unifyWithin_safely (s.size + 1) hposes
      exact .discard hunify

/-- Work of any kind that leads from one store to another: actions on types of the
store, types carried over from a store that was made in the same way, and checkpoints
that are set, reverted and kept without any discipline. -/
inductive Run : TypeStore → TypeStore → Prop where
  | nil (s : TypeStore) : Run s s
  | act {s m : TypeStore} (h : Run s m) (a : Action) (ha : ∀ t ∈ a.types, m.Has t) :
      Run s (a.perform.run m).2
  | carry {s m other : TypeStore} {t : TypeId} (h : Run s m) (hother : Run new other)
      (ht : other.Has t) : Run s ((carryFrom other t).run m).2
  | checkpoint {s m : TypeStore} (h : Run s m) : Run s (checkpoint.run m).2
  | revert {s m : TypeStore} (h : Run s m) (c : Checkpoint) : Run s ((revert c).run m).2
  | keep {s m : TypeStore} (h : Run s m) (c : Checkpoint) : Run s ((keep c).run m).2

/-- **A whole run** leaves an intact store intact and only adds to it. -/
theorem Run.intact_grows {s s' : TypeStore} (h : Run s s') (hs : s.Intact) :
    s'.Intact ∧ Grows s s' := by
  induction h with
  | nil s => exact ⟨hs, .refl s⟩
  | act _ a ha ih =>
      obtain ⟨hi, hg⟩ := ih hs
      obtain ⟨hi', hg', -⟩ := a.perform_safely hi ha
      exact ⟨hi', hg.trans hg'⟩
  | @carry s m other t _ _ _ ih iho =>
      obtain ⟨hi, hg⟩ := ih hs
      have hformed := (iho new_intact).1.wellFormed.treeWithin_formed other.root (other.size + 1) t
      obtain ⟨hi', hg', -⟩ := hi.build_safely hformed
      exact ⟨hi', hg.trans hg'⟩
  | checkpoint _ ih =>
      obtain ⟨hi, hg⟩ := ih hs
      obtain ⟨hi', hg', -⟩ := hi.checkpoint_safely
      exact ⟨hi', hg.trans hg'⟩
  | revert _ c ih =>
      obtain ⟨hi, hg⟩ := ih hs
      obtain ⟨hi', hg', -⟩ := hi.revert_safely c
      exact ⟨hi', hg.trans hg'⟩
  | keep _ c ih =>
      obtain ⟨hi, hg⟩ := ih hs
      obtain ⟨hi', hg', -⟩ := hi.keep_safely c
      exact ⟨hi', hg.trans hg'⟩

/-- Run at `s`, the action answers with a type that stands for the node `n`, and does
so whatever is done afterwards. -/
def Makes (s : TypeStore) (m : StateM TypeStore TypeId) (n : Node) : Prop :=
  ∀ s', Run (m.run s).2 s' → s'.Has (m.run s).1 ∧ s'.node (m.run s).1 = n

/-- A safe action whose answer has the node makes this node. -/
theorem Safely.makes {s : TypeStore} {m : StateM TypeStore TypeId} {n : Node}
    (h : Safely s m fun x t => x.Has t ∧ x.node t = n) : s.Makes m n := by
  intro s' hrun
  obtain ⟨hi, -, hhas, hnode⟩ := h
  have hg := (hrun.intact_grows hi).2
  exact ⟨hg.has hhas, (hg.node_eq hhas).trans hnode⟩

end TypeStore

end DotCall
