import DotCall.Proofs.UnificationSteps

/-!
# Work that leaves no assignment behind

Resolving a call makes types and variables and tries assignments, but all that
remains of it are new types, new free variables and shorter links: it is quiet.
Everything that was true of a type before is true afterwards.

`Works` is the weaker notion for what happens while an assignment is tried.  An
action that only works is quiet when it is tried (`Works.quiet_of_reverts`).  Of
new atoms there are variables only, so every other atom keeps its one handle.
-/

namespace DotCall.TypeStore

/-- Types and variables may have been made: every new atom is a new variable,
and every new variable has its type. -/
structure Works (s s' : TypeStore) : Prop where
  start : s.Ordered
  finish : s'.Ordered
  grows : Grows s s'
  logged : Logged s s'
  atom : ∀ {t a}, ¬ s.Has t → s'.Has t → s'.node t = .atom a →
    ∃ id, a = .var id ∧ s.variableCount ≤ id
  item : ∀ id, s.variableCount ≤ id → id < s'.variableCount →
    ∃ t, s'.node t = .atom (.var id)

/-- Moreover links were at most shortened, and new variables are free. -/
structure Quiet (s s' : TypeStore) : Prop extends Works s s' where
  keeps : Keeps s s'
  free : ∀ id, s.variableCount ≤ id → id < s'.variableCount →
    ∃ name, s'.binding id = .free id name

namespace Works

variable {s m s' s'' : TypeStore} {t : TypeId}

theorem refl (h : s.Ordered) : Works s s where
  start := h
  finish := h
  grows := .refl s
  logged := .refl s
  atom hn ht := absurd ht hn
  item _ hge hlt := absurd hlt (Nat.not_lt_of_le hge)

/-- Work after work is work. -/
theorem trans (h : Works s s') (h' : Works s' s'') : Works s s'' where
  start := h.start
  finish := h'.finish
  grows := h.grows.trans h'.grows
  logged := h.logged.trans h'.logged h.grows h'.grows
  atom {t a} hn ht ha := by
    by_cases ht' : s'.Has t
    · exact h.atom hn ht' (h'.grows.node_eq ht' ▸ ha)
    · obtain ⟨id, hid, hge⟩ := h'.atom ht' ht ha
      exact ⟨id, hid, Nat.le_trans h.grows.count_le hge⟩
  item id hge hlt := by
    by_cases hid : id < s'.variableCount
    · obtain ⟨t, ht⟩ := h.item id hge hid
      exact ⟨t, (h'.grows.node_eq (has_of_node_ne (by simp [ht]))).trans ht⟩
    · exact h'.item id (Nat.le_of_not_lt hid) hlt

/-- Changing bindings makes no type and no variable. -/
theorem of_binds (h : Binds s s') (hs : s.Ordered) (hs' : s'.Ordered) : Works s s' where
  start := hs
  finish := hs'
  grows := h.toExtends.grows
  logged := h.logged
  atom hn ht := absurd (h.has_iff.mp ht) hn
  item _ hge hlt := absurd (h.count ▸ hlt) (Nat.not_lt_of_le hge)

/-- An atom other than a variable was there before. -/
theorem has_of_atom (h : Works s s') {a : Atom} (ht : s'.Has t) (ha : s'.node t = .atom a)
    (hv : ∀ id, a ≠ .var id) : s.Has t := by
  by_cases hold : s.Has t
  · exact hold
  · obtain ⟨id, hid, -⟩ := h.atom hold ht ha
    exact absurd hid (hv id)

end Works

/-- Opening a checkpoint does not matter to types and links. -/
theorem Ordered.opened {s : TypeStore} (h : s.Ordered) : s.opened.Ordered where
  wellFormed := h.wellFormed.rebind rfl rfl (Nat.le_refl _) h.wellFormed.linked_has
  acyclic := h.acyclic

/-- A new checkpoint changes no root. -/
theorem opened_root {s : TypeStore} (t : TypeId) : s.opened.root t = s.root t := by
  have hfollow : ∀ n t, s.opened.follow n t = s.follow n t := by
    intro n
    induction n with
    | zero => exact fun _ => rfl
    | succ n ih =>
        intro t
        have hlink : s.opened.link? t = s.link? t := rfl
        simp only [follow, hlink, ih]
  exact hfollow _ t

namespace Quiet

variable {s m s' s'' : TypeStore} {t : TypeId}

theorem refl (h : s.Ordered) : Quiet s s where
  toWorks := .refl h
  keeps := .refl s
  free _ hge hlt := absurd hlt (Nat.not_lt_of_le hge)

/-- Quiet work after quiet work is quiet. -/
theorem trans (h : Quiet s s') (h' : Quiet s' s'') : Quiet s s'' where
  toWorks := h.toWorks.trans h'.toWorks
  keeps := h.keeps.trans h'.keeps h.start h.finish
  free := h'.keeps.free_trans h.free h'.free

/-- To shorten links is quiet. -/
theorem of_shortens (h : Shortens s s') (hs : s.Ordered) : Quiet s s' where
  toWorks := .of_binds (.of_shortens h hs) hs (h.ordered hs)
  keeps := h.keeps
  free _ hge hlt := absurd (h.count ▸ hlt) (Nat.not_lt_of_le hge)

/-- Adding compound types is quiet. -/
theorem of_adds (h : Adds s s') (hs : s.Ordered) (hs' : s'.WellFormed)
    (happ : ∀ t a, ¬ s.Has t → s'.Has t → s'.node t ≠ .atom a) : Quiet s s' where
  start := hs
  finish := (Keeps.of_adds h).ordered hs hs'
  grows := h.grows
  logged := h.logged
  atom hn ht ha := absurd ha (happ _ _ hn ht)
  item id hge hlt := by
    have hcount : s'.variableCount = s.variableCount := by simp [variableCount, h.bindings]
    omega
  keeps := .of_adds h
  free id hge hlt := by
    have hcount : s'.variableCount = s.variableCount := by simp [variableCount, h.bindings]
    omega

theorem has (h : Quiet s s') (ht : s.Has t) : s'.Has t := h.grows.has ht

/-- Quiet work changes no node that was there. -/
theorem node_eq (h : Quiet s s') (ht : s.Has t) : s'.node t = s.node t := h.grows.node_eq ht

/-- It changes no root of a type that was there. -/
theorem root_eq (h : Quiet s s') (ht : s.Has t) : s'.root t = s.root t :=
  h.keeps.root_eq h.start h.finish ht

/-- **A type means the same** after quiet work. -/
theorem meaning_eq (h : Quiet s s') (ht : s.Has t) : s'.meaning t = s.meaning t :=
  h.keeps.meaning_eq h.start h.finish ht

/-- It is written the same as well. -/
theorem written_eq (h : Quiet s s') (ht : s.Has t) : s'.written t = s.written t :=
  h.start.wellFormed.written_grows h.finish.wellFormed h.grows ht

end Quiet

/-- **Trying is quiet.**  Reverting the assignments that an action made leaves
the types and free variables that it made. -/
theorem Works.quiet_of_reverts {s m s' : TypeStore} (h : Works s.opened m) (hs : s.Ordered)
    (hr : Reverts s m s') : Quiet s s' := by
  have hg : Grows s m := ⟨h.grows.size_le, h.grows.count_le, h.grows.node_eq, h.grows.summary_eq⟩
  have hkeeps := Keeps.of_reverts hr hg
  have hlinked : ∀ {id t}, s'.binding id = .linked t → m.Has t := fun hb => by
    obtain ⟨u, hu, rfl | rfl⟩ := hkeeps.linked_cases hb
    · exact hg.has (hs.wellFormed.linked_has hu)
    · exact hg.has (hs.has_root (hs.wellFormed.linked_has hu))
  have hwf : s'.WellFormed :=
    h.finish.wellFormed.rebind hr.entries hr.handles (Nat.le_of_eq hr.count.symm) hlinked
  have hhas : ∀ {t}, s'.Has t ↔ m.Has t := by simp [Has, size, hr.entries]
  exact
    { start := hs
      finish := hkeeps.ordered hs hwf
      grows := hr.grows hg
      logged := hr.logged
      atom := fun hn ht ha => h.atom hn (hhas.mp ht) (hr.node_eq ▸ ha)
      item := fun id hge hlt => by
        rw [hr.node_eq]
        exact h.item id hge (hr.count ▸ hlt)
      keeps := hkeeps
      free := fun id hge hlt => by
        rcases hr.born id hge (hr.count ▸ hlt) with ⟨name, t, hb, -⟩ | ⟨name, t, -, ht⟩
        · exact ⟨name, hb⟩
        · -- a generic parameter would be a new atom other than a variable
          have htm : m.Has t := has_of_node_ne (by simp [ht])
          have hts : s.Has t := h.has_of_atom htm ht (by simp)
          have hlt' := hs.wellFormed.generic_lt ((hg.node_eq hts).symm.trans ht)
          omega }

/-- **Whatever is tried is quiet**: a tentative action answers as the action itself, and
only new types, new variables and shorter links remain. -/
theorem tentatively_quiet {α : Type} {act : StateM TypeStore α} {s : TypeStore}
    (hs : s.Ordered) (h : Works s.opened (act.run s.opened).2) :
    ((tentatively act).run s).1 = (act.run s.opened).1 ∧ Quiet s ((tentatively act).run s).2 := by
  have hg : Grows s (act.run s.opened).2 :=
    ⟨h.grows.size_le, h.grows.count_le, h.grows.node_eq, h.grows.summary_eq⟩
  obtain ⟨hanswer, hreverts⟩ := tentatively_run h.logged hg
  exact ⟨hanswer, h.quiet_of_reverts hs hreverts⟩

/-- A trial uses up the variables that the action makes. -/
theorem Works.tentatively_count {α : Type} {act : StateM TypeStore α} {s : TypeStore}
    (h : Works s.opened (act.run s.opened).2) (hs : s.Ordered) :
    Quiet s ((tentatively act).run s).2 ∧
      ((tentatively act).run s).2.variableCount = (act.run s.opened).2.variableCount := by
  have hg : Grows s (act.run s.opened).2 :=
    ⟨h.grows.size_le, h.grows.count_le, h.grows.node_eq, h.grows.summary_eq⟩
  exact ⟨(tentatively_quiet hs h).2, (tentatively_run h.logged hg).2.count⟩

namespace Ordered

variable {s : TypeStore} {t : TypeId}

/-- Finding a root is quiet. -/
theorem findRoot_quiet (h : s.Ordered) (t : TypeId) :
    ((findRoot t).run s).1 = s.root t ∧ Quiet s ((findRoot t).run s).2 := by
  obtain ⟨hroot, hshort⟩ := h.findRoot_run t
  exact ⟨hroot, .of_shortens hshort h⟩

/-- Interning a compound node is quiet. -/
theorem intern_quiet (h : s.Ordered) {f : Former} {args : List TypeId}
    (hargs : ∀ a ∈ args, s.Has a) (htakes : f.Takes args.length) :
    let r := (intern (.app f args)).run s
    Quiet s r.2 ∧ Adds s r.2 ∧ r.2.Has r.1 ∧ r.2.node r.1 = .app f args := by
  obtain ⟨hwf, hadds, hhas, hnode⟩ := h.wellFormed.intern_run (.app hargs htakes)
  refine ⟨.of_adds hadds h hwf fun t a hn ht => ?_, hadds, hhas, hnode⟩
  simp [node_intern_of_new hn ht]

/-- Making a borrow is quiet, and its node is the borrow. -/
theorem refTo_quiet (h : s.Ordered) (b : Borrow) (ht : s.Has t) :
    let r := (refTo b t).run s
    Quiet s r.2 ∧ Adds s r.2 ∧ r.2.Has r.1 ∧ r.2.node r.1 = .app (.ref b) [t] :=
  h.intern_quiet (by simpa using ht) rfl

/-- Making a slice is quiet, and its node is the slice. -/
theorem sliceOf_quiet (h : s.Ordered) (ht : s.Has t) :
    let r := (sliceOf t).run s
    Quiet s r.2 ∧ Adds s r.2 ∧ r.2.Has r.1 ∧ r.2.node r.1 = .app .slice [t] :=
  h.intern_quiet (by simpa using ht) rfl

end Ordered

/-- What is related to a list element by element comes from its elements. -/
theorem exists_of_forall₂ {α β : Type} {R : α → β → Prop} {xs : List α} {ys : List β}
    (h : List.Forall₂ R xs ys) : ∀ y ∈ ys, ∃ x ∈ xs, R x y := by
  induction h with
  | nil => simp
  | cons hxy _ ih =>
      intro y hy
      rcases List.mem_cons.mp hy with rfl | hy
      · exact ⟨_, List.mem_cons_self, hxy⟩
      · obtain ⟨x, hx, hxy⟩ := ih y hy
        exact ⟨x, List.mem_cons_of_mem _ hx, hxy⟩

/-- From `s` on, at whatever store quiet work has led to, the action is quiet and
its answer satisfies `Q`. -/
def Calm {α : Type} (s : TypeStore) (m : StateM TypeStore α) (Q : TypeStore → α → Prop) : Prop :=
  ∀ x, Quiet s x → Quiet x (m.run x).2 ∧ Q (m.run x).2 (m.run x).1

namespace Calm

variable {α β : Type} {s x : TypeStore} {m : StateM TypeStore α} {Q : TypeStore → α → Prop}
  {R : TypeStore → β → Prop} {xs : List α}

/-- What is calm at a store is calm after quiet work on it. -/
theorem mono (h : Calm s m Q) (hx : Quiet s x) : Calm x m Q :=
  fun y hy => h y (hx.trans hy)

/-- What is known of the answer of a calm action may be weakened. -/
theorem imp {Q' : TypeStore → α → Prop} (h : Calm s m Q)
    (hQ : ∀ x a, Quiet s x → Q x a → Q' x a) : Calm s m Q' := by
  intro x hx
  obtain ⟨hq, ha⟩ := h x hx
  exact ⟨hq, hQ _ _ (hx.trans hq) ha⟩

/-- To answer is calm. -/
theorem pure {a : α} (h : ∀ x, Quiet s x → Q x a) : Calm s (pure a) Q :=
  fun x hx => ⟨.refl hx.finish, h x hx⟩

/-- To look at the store is calm. -/
theorem get : Calm s get fun x y => x = y :=
  fun _ hx => ⟨.refl hx.finish, rfl⟩

/-- Calm actions in sequence are calm. The second is known to be so at every store that
the first may leave. -/
theorem bind {f : α → StateM TypeStore β} (hm : Calm s m Q)
    (hf : ∀ x a, Quiet s x → Q x a → Calm x (f a) R) : Calm s (m >>= f) R := by
  intro x hx
  obtain ⟨hq, ha⟩ := hm x hx
  obtain ⟨hq', hb⟩ := hf _ _ (hx.trans hq) ha _ (.refl hq.finish)
  exact ⟨hq.trans hq', hb⟩

/-- Each element in turn; what is known of an answer has to last. -/
theorem mapM {f : α → StateM TypeStore β} {P : TypeStore → α → β → Prop}
    (last : ∀ {x y a b}, Quiet x y → P x a b → P y a b)
    (hf : ∀ a ∈ xs, Calm s (f a) fun x b => P x a b) :
    Calm s (xs.mapM f) fun x bs => List.Forall₂ (P x) xs bs := by
  induction xs generalizing s with
  | nil => exact .pure fun _ _ => .nil
  | cons a xs ih =>
      rw [List.mapM_cons]
      refine bind (hf a List.mem_cons_self) fun x b hx hb => ?_
      refine bind (ih fun a' ha' => (hf a' (List.mem_cons_of_mem _ ha')).mono hx) ?_
      intro y bs hy hbs
      exact .pure fun z hz => .cons (last (hy.trans hz) hb)
        (hbs.imp fun _ _ hab => last hz hab)

/-- A calm action for each element is calm, and each answer comes from an element. What is
known of an answer has to last while the later ones are computed. -/
theorem mapM_mem {f : α → StateM TypeStore β} {P : TypeStore → α → β → Prop}
    (last : ∀ {x y a b}, Quiet x y → P x a b → P y a b)
    (hf : ∀ a ∈ xs, Calm s (f a) fun x b => P x a b) :
    Calm s (xs.mapM f) fun x bs => ∀ b ∈ bs, ∃ a ∈ xs, P x a b := by
  have hall := mapM (P := P) last hf
  exact hall.imp fun x bs _ hbs => exists_of_forall₂ hbs

section Constant

variable {test : α → StateM TypeStore Bool} {pass : α → Bool}

/-- A loop over calm tests answers as the tests do. -/
theorem anyM (h : ∀ a ∈ xs, Calm s (test a) fun _ b => b = pass a) :
    Calm s (xs.anyM test) fun _ b => b = xs.any pass := by
  induction xs generalizing s with
  | nil => exact .pure fun _ _ => rfl
  | cons a xs ih =>
      rw [List.anyM_cons]
      refine bind (h a List.mem_cons_self) fun x b hx hb => ?_
      have hrest := ih fun a' ha' => (h a' (List.mem_cons_of_mem _ ha')).mono hx
      cases b with
      | true => exact .pure fun _ _ => by simp [← hb]
      | false => exact hrest.imp fun y c _ hc => by simp [hc, ← hb]

/-- A loop that stops at the first answer is calm when each round is. -/
theorem findSomeM? {f : α → StateM TypeStore (Option β)} {g : α → Option β}
    (h : ∀ a ∈ xs, Calm s (f a) fun _ b => b = g a) :
    Calm s (xs.findSomeM? f) fun _ b => b = xs.findSome? g := by
  induction xs generalizing s with
  | nil => exact .pure fun _ _ => rfl
  | cons a xs ih =>
      rw [List.findSomeM?_cons]
      refine bind (h a List.mem_cons_self) fun x b hx hb => ?_
      have hrest := ih fun a' ha' => (h a' (List.mem_cons_of_mem _ ha')).mono hx
      cases b with
      | some c => exact .pure fun _ _ => by simp [← hb]
      | none => exact hrest.imp fun y c _ hc => by simp [hc, ← hb]

end Constant

end Calm

end DotCall.TypeStore
