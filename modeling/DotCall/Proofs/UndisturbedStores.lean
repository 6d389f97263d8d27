import DotCall.Proofs.CandidateGathering

/-!
# Work that disturbs nothing

What resolving a call may leave behind in a store: new types, new variables that
are free, and links that lead to the end of their chain.  Whoever held a type
before still holds the same type (`Undisturbed.expand_eq`).  Quiet work is of that
kind, but says more: it makes no atoms other than variables, and a checkpoint
around it can be reverted.  A coercion of which no more is known than that it
leaves no assignment behind need not keep to that.

An action that is only tried is quiet, whatever it does under the checkpoint, as
long as each part of it works on types of the store.  `Along` carries such
properties through an action for one kind of change or another.
-/

namespace DotCall

open TypeStore

namespace TypeStore

/-- The store is still in order and has as many open checkpoints; every binding is
what it was, except that a link may point to the end of its chain; every new
variable is free; and every type is what it was. -/
structure Undisturbed (s s' : TypeStore) : Prop where
  start : s.Ordered
  finish : s'.Ordered
  opens : s'.openCheckpoints = s.openCheckpoints
  keeps : Keeps s s'
  free : ∀ id, s.variableCount ≤ id → id < s'.variableCount →
    ∃ name, s'.binding id = .free id name

/-- Quiet work disturbs nothing: it only compresses paths and makes types. -/
theorem Quiet.undisturbed {s s' : TypeStore} (h : Quiet s s') : Undisturbed s s' :=
  ⟨h.start, h.finish, h.logged.opens, h.keeps, h.free⟩

namespace Undisturbed

variable {s s' s'' : TypeStore} {t : TypeId}

theorem refl (h : s.Ordered) : Undisturbed s s := (Quiet.refl h).undisturbed

theorem trans (h : Undisturbed s s') (h' : Undisturbed s' s'') : Undisturbed s s'' where
  start := h.start
  finish := h'.finish
  opens := h'.opens.trans h.opens
  keeps := h.keeps.trans h'.keeps h.start h.finish
  free := h'.keeps.free_trans h.free h'.free

/-- **Every type is expanded to the same as before.** -/
theorem expand_eq (h : Undisturbed s s') (ht : s.Has t) :
    ((expand t).run s').2.written ((expand t).run s').1 =
      ((expand t).run s).2.written ((expand t).run s).1 := by
  obtain ⟨-, -, hbefore⟩ := h.start.expand_run ht
  obtain ⟨-, -, hafter⟩ := h.finish.expand_run (h.keeps.grows.has ht)
  rw [hbefore, hafter]
  exact h.keeps.meaning_eq h.start h.finish ht

end Undisturbed

/-- A kind of change that quiet work is of, that leads to a store in order, and that
goes on from change to change. -/
structure Lasting (R : TypeStore → TypeStore → Prop) : Prop where
  ordered : ∀ {x y}, R x y → y.Ordered
  quiet : ∀ {x y}, Quiet x y → R x y
  trans : ∀ {x y z}, R x y → R y z → R x z

/-- Both kinds of change can be followed from step to step: they are reflexive, transitive
and contain quiet work. -/
theorem lasting_works : Lasting Works where
  ordered h := h.finish
  quiet h := h.toWorks
  trans h h' := h.trans h'

theorem lasting_undisturbed : Lasting Undisturbed where
  ordered h := h.finish
  quiet h := h.undisturbed
  trans h h' := h.trans h'

/-- From `s` on, at whatever store such changes have led to, the action makes such a
change and its answer satisfies `Q`. -/
def Along {α : Type} (R : TypeStore → TypeStore → Prop) (s : TypeStore) (m : StateM TypeStore α)
    (Q : TypeStore → α → Prop) : Prop :=
  ∀ x, R s x → R x (m.run x).2 ∧ Q (m.run x).2 (m.run x).1

namespace Lasting

variable {R : TypeStore → TypeStore → Prop} {α β : Type} {s : TypeStore}
  {m : StateM TypeStore α} {Q : TypeStore → α → Prop} {Q' : TypeStore → β → Prop}

/-- An action that is calm in every store reached goes along with any lasting relation. -/
theorem of_calm (hR : Lasting R) (h : ∀ x, R s x → Calm x m Q) : Along R s m Q := by
  intro x hx
  obtain ⟨hq, ha⟩ := h x hx x (.refl (hR.ordered hx))
  exact ⟨hR.quiet hq, ha⟩

theorem pure (hR : Lasting R) {a : α} (h : ∀ x, R s x → Q x a) : Along R s (pure a) Q :=
  hR.of_calm fun _ hx => .pure fun y hy => h y (hR.trans hx (hR.quiet hy))

/-- Actions that go along do so one after the other, and the second knows what the first
returned. -/
theorem bind (hR : Lasting R) {f : α → StateM TypeStore β} (hm : Along R s m Q)
    (hf : ∀ x a, R s x → Q x a → Along R x (f a) Q') : Along R s (m >>= f) Q' := by
  intro x hx
  obtain ⟨h₁, ha⟩ := hm x hx
  obtain ⟨h₂, hb⟩ := hf _ _ (hR.trans hx h₁) ha _ (hR.quiet (.refl (hR.ordered h₁)))
  exact ⟨hR.trans h₁ h₂, hb⟩

end Lasting

/-- Quiet work of whose answer nothing is said. -/
abbrev Still {α : Type} (s : TypeStore) (m : StateM TypeStore α) : Prop :=
  Calm s m fun _ _ => True

theorem still_pure {α : Type} {s : TypeStore} (a : α) : Still s (pure a) :=
  .pure fun _ _ => trivial

/-- A calm action is still, as all it says of its answer is left out. -/
theorem Calm.still {α : Type} {s : TypeStore} {m : StateM TypeStore α}
    {Q : TypeStore → α → Prop} (h : Calm s m Q) : Still s m :=
  h.imp fun _ _ _ _ => trivial

/-- **Trying is quiet.**  What is known of the answer has to be about types, which
stay when assignments are reverted. -/
theorem calm_tentatively {α : Type} {s : TypeStore} {act : StateM TypeStore α}
    {Q : TypeStore → α → Prop} (last : ∀ {x y a}, y.entries = x.entries → Q x a → Q y a)
    (h : ∀ x, Quiet s x → Along Works x.opened act Q) : Calm s (tentatively act) Q := by
  intro x hx
  obtain ⟨hworks, ha⟩ := h x hx x.opened (.refl hx.finish.opened)
  obtain ⟨-, hq⟩ := tentatively_quiet hx.finish hworks
  exact ⟨hq, last (tentatively_entries act x) ha⟩

section Operations

variable {s : TypeStore} {t u : TypeId}

/-- Looking for a root writes only shorter paths. -/
theorem calm_findRoot (ht : s.Has t) : Calm s (findRoot t) fun x u => x.Has u := by
  intro x hx
  obtain ⟨hroot, hq⟩ := hx.finish.findRoot_quiet t
  exact ⟨hq, hroot ▸ hq.has (hx.finish.has_root (hx.has ht))⟩

/-- Writing a type out makes types and binds nothing. -/
theorem calm_expand (ht : s.Has t) : Calm s (expand t) fun x u => x.Has u := by
  intro x hx
  obtain ⟨hq, hreads⟩ := hx.finish.expand_run (hx.has ht)
  exact ⟨hq, hreads.1⟩

/-- New variables are added behind the others; the ones that exist are not touched. -/
theorem calm_newVars (s : TypeStore) (n : Nat) :
    Calm s (newVars n) fun x args => ∀ a ∈ args, x.Has a := by
  intro x hx
  obtain ⟨hq, -, hnodes⟩ := hx.finish.newVars_run n
  refine ⟨hq, fun a ha => ?_⟩
  have hnode := List.mem_map_of_mem (f := ((newVars n).run x).2.node) ha
  rw [hnodes] at hnode
  obtain ⟨id, -, hid⟩ := List.mem_map.mp hnode
  exact has_of_node_ne (by simp [← hid])

/-- An instance is made of types the store has, so it makes types and binds nothing. -/
theorem calm_instantiate {args : List TypeId} (ht : s.Has t) (hargs : ∀ a ∈ args, s.Has a) :
    Calm s (instantiate t args) fun x u => x.Has u := by
  intro x hx
  obtain ⟨hq, hreads⟩ := hx.finish.instantiate_run (fun a ha => hx.has (hargs a ha)) (hx.has ht)
  exact ⟨hq, hreads.1⟩

/-- Unifying makes no type and no variable. -/
theorem Ordered.unify_works (h : s.Ordered) (ht : s.Has t) (hu : s.Has u) :
    Works s ((unify t u).run s).2 := by
  obtain ⟨hordered, hbinds⟩ := h.solving_binds (h.unify_solving ht hu) (by simpa using ⟨ht, hu⟩)
  exact .of_binds hbinds h hordered

/-- Unifying is work: it may bind variables, and it forgets none that were bound. -/
theorem along_unifies (ht : s.Has t) (hu : s.Has u) :
    Along Works s (unifies t u) fun _ _ => True := by
  intro x hx
  rw [unifies_run]
  exact ⟨hx.finish.unify_works (hx.grows.has ht) (hx.grows.has hu), trivial⟩

/-- Trying a pattern: its parameters are replaced by new variables and the instance
is unified with a type, before anything else is done. -/
theorem calm_trial {α : Type} {pattern : TypeId} {n : Nat}
    {k : List TypeId → Bool → StateM TypeStore α} {Q : TypeStore → α → Prop}
    (last : ∀ {x y a}, y.entries = x.entries → Q x a → Q y a)
    (hpattern : s.Has pattern) (ht : s.Has t)
    (hk : ∀ x args matched, x.Ordered → Grows s x → (∀ a ∈ args, x.Has a) →
      Calm x (k args matched) Q) :
    Calm s (tentatively do
      let args ← newVars n
      let one ← instantiate pattern args
      let matched ← unifies one t
      k args matched) Q := by
  refine calm_tentatively last fun x hx => ?_
  have hgrows : Grows s x.opened :=
    ⟨hx.grows.size_le, hx.grows.count_le, hx.grows.node_eq, hx.grows.summary_eq⟩
  refine lasting_works.bind (lasting_works.of_calm fun x' _ => calm_newVars x' n) ?_
  intro x₁ args h₁ hargs
  have hg₁ := hgrows.trans h₁.grows
  refine lasting_works.bind (lasting_works.of_calm fun x' h' =>
    calm_instantiate (h'.grows.has (hg₁.has hpattern)) fun a ha => h'.grows.has (hargs a ha)) ?_
  intro x₂ one h₂ hone
  refine lasting_works.bind (along_unifies hone (h₂.grows.has (hg₁.has ht))) ?_
  intro x₃ matched h₃ _
  refine lasting_works.of_calm fun x₄ h₄ => ?_
  have hg := (h₂.trans h₃).trans h₄
  exact hk x₄ args matched h₄.finish (hg₁.trans hg.grows) fun a ha => hg.grows.has (hargs a ha)

end Operations

section Loops

variable {α β : Type} {s : TypeStore} {xs : List α}

theorem still_anyM {test : α → StateM TypeStore Bool} (h : ∀ a ∈ xs, Still s (test a)) :
    Still s (xs.anyM test) := by
  induction xs generalizing s with
  | nil => exact still_pure _
  | cons a xs ih =>
      rw [List.anyM_cons]
      refine (h a List.mem_cons_self).bind fun x b hx _ => ?_
      cases b with
      | true => exact still_pure _
      | false => exact ih fun a' ha' => (h a' (List.mem_cons_of_mem _ ha')).mono hx

/-- A search is calm when each of its tries is. What is known of the answer has to outlast
the tries behind it. -/
theorem calm_findSomeM?_some {f : α → StateM TypeStore (Option β)} {P : TypeStore → β → Prop}
    (last : ∀ {x y b}, Quiet x y → P x b → P y b)
    (h : ∀ a ∈ xs, Calm s (f a) fun x o => ∀ b, o = some b → P x b) :
    Calm s (xs.findSomeM? f) fun x o => ∀ b, o = some b → P x b := by
  induction xs generalizing s with
  | nil => exact .pure fun _ _ b hb => by cases hb
  | cons a xs ih =>
      rw [List.findSomeM?_cons]
      refine (h a List.mem_cons_self).bind fun x o hx ho => ?_
      cases o with
      | some c => exact .pure fun y hy b hb => last hy (ho b hb)
      | none => exact ih fun a' ha' => (h a' (List.mem_cons_of_mem _ ha')).mono hx

theorem still_foldlM {f : β → α → StateM TypeStore β} (h : ∀ b, ∀ a ∈ xs, Still s (f b a))
    (b : β) : Still s (xs.foldlM f b) := by
  induction xs generalizing s b with
  | nil => exact still_pure _
  | cons a xs ih =>
      rw [List.foldlM_cons]
      refine (h b a List.mem_cons_self).bind fun x b' hx _ => ?_
      exact ih (fun b a' ha' => (h b a' (List.mem_cons_of_mem _ ha')).mono hx) b'

end Loops

end TypeStore

end DotCall
