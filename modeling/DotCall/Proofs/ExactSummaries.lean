import DotCall.Proofs.ReservedSlots

/-!
# Summaries are exact and safe to go by

Four facts of a summary say what is written anywhere in a type, the other four which sort
the outermost layer is of.  Both hold exactly, in every store that work of any kind leads to
(`Descent.summaries_exact`); the reserved slots alone are error types in all but their
outermost layer.

Instantiating, expanding and the search for a variable go by the summary and skip the parts
where it says that nothing is to be done.  Here each of them is also written without that:
it goes through the whole type, however deep, and comes to the same answer and the same
store.  Where there is nothing to do a type is taken apart and put together again, and the
store, which keeps each type once, gives back the handle that it had (`rebuild_still`).
-/

namespace DotCall

/-- A fact of summaries that says of a type whether its outermost layer is of some sort:
formers do not pass it on. -/
structure Summary.Outermost (fact : Summary → Bool) (sort : Kind → Prop) : Prop where
  atom : ∀ a : Atom, (∀ slot, a ≠ .reserved slot) → (fact a.summary = true ↔ sort a.kind)
  former : ∀ f : Former, fact f.summary = true ↔ sort f.kind
  union : ∀ x y : Summary, fact (x.union y) = (fact x || fact y) := by intros; rfl
  inherited : ∀ x : Summary, fact x.inherited = false := by intros; rfl
  plain : fact .plain = false := by rfl

namespace Summary.Outermost

/-- The flag for primitive types follows the kind. -/
theorem primitive : Outermost (·.primitive) fun k => ∃ p, k = .prim p where
  atom a ha := by
    cases a with
    | prim p => cases p <;> simp [Atom.summary, Primitive.summary, Atom.kind]
    | reserved slot => exact absurd rfl (ha slot)
    | _ => simp [Atom.summary, Atom.kind]
  former f := by cases f <;> simp [Former.summary, Former.kind]

/-- So does the one for references, of either sort. -/
theorem reference : Outermost (·.reference) fun k => ∃ b, k = .ref b where
  atom a _ := by
    cases a with
    | prim p => cases p <;> simp [Atom.summary, Primitive.summary, Atom.kind]
    | _ => simp [Atom.summary, Atom.kind]
  former f := by cases f <;> simp [Former.summary, Former.kind]

/-- Unsized are `str`, the slices and the trait objects, and nothing that contains one. -/
theorem unsized :
    Outermost (·.unsized) fun k => k = .prim .str ∨ k = .slice ∨ k = .object where
  atom a _ := by
    cases a with
    | prim p => cases p <;> simp [Atom.summary, Primitive.summary, Atom.kind]
    | _ => simp [Atom.summary, Atom.kind]
  former f := by cases f <;> simp [Former.summary, Former.kind]

/-- The flag for nominal types follows the kind, too. -/
theorem nominal : Outermost (·.nominal) fun k => k = .nominal where
  atom a _ := by
    cases a with
    | prim p => cases p <;> simp [Atom.summary, Primitive.summary, Atom.kind]
    | _ => simp [Atom.summary, Atom.kind]
  former f := by cases f <;> simp [Former.summary, Former.kind]

variable {fact : Summary → Bool} {sort : Kind → Prop}

/-- A flag about the outermost layer is not inherited, so the arguments leave it as it is.
-/
theorem foldl_union (h : Outermost fact sort) (xs : List Summary) (acc : Summary) :
    fact (xs.foldl (fun acc x => acc.union x.inherited) acc) = fact acc := by
  induction xs generalizing acc with
  | nil => rfl
  | cons x xs ih => simp [ih, h.union, h.inherited]

/-- Nothing is taken over from the arguments. -/
theorem node_app (h : Outermost fact sort) (f : Former) (args : List TypeId)
    (ofArg : TypeId → Summary) : fact ((Node.app f args).summary ofArg) = fact f.summary := by
  simp [Node.summary, inheritedAll, h.union, h.foldl_union, h.plain]

/-- **The outermost layer.**  Of a type that is no reserved slot the summary has the fact
exactly when the kind is of the sort. -/
theorem summary_iff (h : Outermost fact sort) {s : TypeStore} (hs : s.WellFormed) {t : TypeId}
    (ht : ∀ slot, s.node t ≠ .atom (.reserved slot)) :
    fact (s.summary t) = true ↔ sort (s.kind t) := by
  rw [hs.summary_node, TypeStore.kind]
  cases hn : s.node t with
  | atom a => exact h.atom a fun slot hslot => ht slot (hn.trans (congrArg _ hslot))
  | app f args =>
      rw [h.node_app]
      exact h.former f

end Summary.Outermost

/-- The flag for generic parameters follows them. -/
theorem Summary.Tracks.hasGeneric : Tracks (·.hasGeneric) fun a => ∃ id, a = .generic id where
  atom a := by
    cases a with
    | prim p => cases p <;> simp [Atom.summary, Primitive.summary]
    | _ => simp [Atom.summary]
  former f := by cases f <;> rfl
  union _ _ := rfl
  inherited _ := rfl
  plain := rfl

namespace TypeStore

namespace Thorough

/-- Replace the parameters of a type, going through all of it. -/
def instantiate (args : List TypeId) : Nat → TypeId → Work TypeId
  | 0, _ => failure
  | n + 1, t => do
    match (← get).node t with
    | .atom (.param position) => pure (args[position]?.getD t)
    | .atom _ => pure t
    | .app f parts =>
      let parts ← parts.mapM (instantiate args n)
      Work.of (intern (.app f parts))

/-- Replace every linked variable of a type, going through all of it. -/
def expand : Nat → TypeId → Work TypeId
  | 0, _ => failure
  | n + 1, t => do
    let t ← Limited.findRoot n t
    match (← get).node t with
    | .atom _ => pure t
    | .app f args =>
      let args ← args.mapM (expand n)
      Work.of (intern (.app f args))

/-- Look for a variable in all of a type, links included. -/
def occurs (s : TypeStore) (var : Nat) : Nat → TypeId → Option Bool
  | 0, _ => none
  | n + 1, t =>
    match s.node t with
    | .atom (.var id) =>
      if id = var then some true
      else match s.binding id with
        | .linked target => occurs s var n target
        | _ => some false
    | .atom _ => some false
    | .app _ args => args.anyM (occurs s var n)

end Thorough

section Still

variable {s : TypeStore} {t : TypeId}

/-- A type taken apart and put together again is the type that it was. -/
theorem WellFormed.rebuild_still (h : s.WellFormed) {f : Former} {args : List TypeId}
    (hn : s.node t = .app f args) {w : Nat → TypeId → Work TypeId}
    (hone : ∀ a ∈ args, Agrees s (w · a) (pure a)) :
    Agrees s (fun n => args.mapM (w n) >>= fun parts => Work.of (intern (.app f parts)))
      (pure t) := by
  have ht : s.Has t := has_of_node_ne (by simp [hn])
  have hloop : Agrees s (fun n => args.mapM (w n)) (args.mapM pure) :=
    Agrees.mapM (P := (· = s)) rfl fun a ha x hx => by
      subst hx
      exact ⟨hone a ha, rfl⟩
  have hsame : (args.mapM (pure : TypeId → StateM TypeStore TypeId)).run s = (args, s) :=
    mapM_of_still fun _ _ => rfl
  have hmade : (args.mapM pure >>= fun parts => intern (.app f parts)).run s = (t, s) := by
    rw [run_bind, hsame, ← hn]
    exact h.intern_of_node ht
  have hboth := hloop.bind (f := fun _ parts => Work.of (intern (.app f parts)))
    (g := fun parts => intern (.app f parts)) (.of _)
  rwa [Agrees, hmade] at hboth

/-- Where a fact of summaries does not hold of a type, it does not hold of the arguments. -/
theorem WellFormed.fact_of_arg (h : s.WellFormed) {fact : Summary → Bool} {sort : Atom → Prop}
    (hfact : Summary.Tracks fact sort) (ht : fact (s.summary t) = false) {f : Former}
    {args : List TypeId} (hn : s.node t = .app f args) {a : TypeId} (ha : a ∈ args) :
    fact (s.summary a) = false := by
  rw [h.summary_node, hn, hfact.node_app, List.any_eq_false] at ht
  simpa using ht a ha

/-- Where no parameter occurs, the walk through the whole type comes back with the type
itself. This is what the check of the flag saves. -/
theorem WellFormed.instantiate_still (h : s.WellFormed) (args : List TypeId)
    (ht : (s.summary t).hasParam = false) :
    Agrees s (Thorough.instantiate args · t) (pure t) := by
  induction t using h.handle_induction with
  | step t ih =>
      refine .succ (.get (g := fun _ => pure t) ?_)
      cases hn : s.node t with
      | atom a =>
          cases a with
          | param position => simp [h.summary_node, hn, Node.summary, Atom.summary] at ht
          | _ => exact .pure t
      | app f parts =>
          refine h.rebuild_still hn fun a ha => ih a (by simpa [hn, Node.args] using ha) ?_
          exact h.fact_of_arg .hasParam ht hn ha

/-- A type without variables is not linked. -/
theorem link?_of_no_var (h : s.WellFormed) (ht : (s.summary t).hasVar = false) :
    s.link? t = none := by
  cases hl : s.link? t with
  | none => rfl
  | some p =>
      have hn := (link?_eq_some.mp hl).1
      simp [h.summary_node, hn, Node.summary, Atom.summary] at ht

/-- Nothing is followed from a type that is not linked. -/
theorem findRoot_still (hl : s.link? t = none) : Agrees s (Limited.findRoot · t) (pure t) := by
  refine .succ (.get (g := fun _ => pure t) ?_)
  simp only [hl]
  exact .pure t

/-- Where no variable occurs, expanding without a look at the flag comes back with the
type itself. -/
theorem WellFormed.expand_still (h : s.WellFormed) (ht : (s.summary t).hasVar = false) :
    Agrees s (Thorough.expand · t) (pure t) := by
  induction t using h.handle_induction with
  | step t ih =>
      have hroot := findRoot_still (link?_of_no_var h ht)
      refine .succ (hroot.bind (g := fun _ => pure t) (.get (g := fun _ => pure t) ?_))
      simp only [run_pure]
      cases hn : s.node t with
      | atom a => exact .pure t
      | app f args =>
          refine h.rebuild_still hn fun a ha => ih a (by simpa [hn, Node.args] using ha) ?_
          exact h.fact_of_arg .hasVar ht hn ha

/-- Where no variable occurs, the check without a look at the flag finds none. -/
theorem WellFormed.occurs_still (h : s.WellFormed) (var : Nat)
    (ht : (s.summary t).hasVar = false) : Ends (Thorough.occurs s var · t) false := by
  induction t using h.handle_induction with
  | step t ih =>
      refine .succ ?_
      simp only [Thorough.occurs]
      cases hn : s.node t with
      | atom a =>
          cases a with
          | var id => simp [h.summary_node, hn, Node.summary, Atom.summary] at ht
          | _ => exact .of_eq fun _ => rfl
      | app f args =>
          have hargs := Ends.anyM (g := fun _ => false) fun a ha =>
            ih a (by simpa [hn, Node.args] using ha) (h.fact_of_arg .hasVar ht hn ha)
          rwa [List.any_eq_false.mpr (by simp)] at hargs

end Still

section Skipping

variable {s : TypeStore} {t : TypeId}

/-- Reading the store is no work. -/
theorem Agrees.get_right {β : Type} {w : Nat → Work β} {g : TypeStore → StateM TypeStore β}
    (h : Agrees s w (g s)) : Agrees s w (MonadState.get >>= g) := h

/-- Instantiating with and without the flags agree. Each compound type is a case of its
own: the flag is off and the walk is still, or it is on and the arguments agree by
induction. -/
theorem Intact.instantiateWithin_agrees (h : s.Intact) {args : List TypeId}
    (hargs : ∀ a ∈ args, s.Has a) (ht : s.Has t) {n : Nat} (hn : t.index < n) :
    Agrees s (Thorough.instantiate args · t) (instantiateWithin args n t) := by
  induction n generalizing s t with
  | zero => omega
  | succ n ih =>
      rw [instantiateWithin]
      refine .get_right ?_
      split
      · refine .succ (.get ?_)
        cases hnode : s.node t with
        | atom a => cases a <;> exact .pure _
        | app f parts =>
            refine (Agrees.mapM (P := fun x => x.Intact ∧ Grows s x) ⟨h, .refl s⟩
              fun a ha x hx => ?_).bind (.of _)
            obtain ⟨hx, hgrows⟩ := hx
            have hmem : a ∈ (s.node t).args := by simpa [hnode, Node.args] using ha
            have hlt := h.wellFormed.args_lt hmem
            have hhas : x.Has a := hgrows.has (h.wellFormed.has_arg hmem)
            have hargs' : ∀ b ∈ args, x.Has b := fun b hb => hgrows.has (hargs b hb)
            obtain ⟨hnext, hgrows', -⟩ := hx.instantiateWithin_safely hargs' n hhas
            exact ⟨ih hx hargs' hhas (by omega), hnext, hgrows.trans hgrows'⟩
      · next hp => exact h.wellFormed.instantiate_still args (by simpa using hp)

/-- The same with the bound of the store. -/
theorem Intact.instantiate_agrees (h : s.Intact) {args : List TypeId}
    (hargs : ∀ a ∈ args, s.Has a) (ht : s.Has t) :
    Agrees s (Thorough.instantiate args · t) (instantiate t args) :=
  h.instantiateWithin_agrees hargs ht (Nat.lt_succ_self _)

namespace Ordered

/-- Expanding with and without the flags agree. -/
theorem expandWithin_agrees_thorough (h : s.Ordered) (ht : s.Has t) {n : Nat}
    (hn : (s.meaning t).height < n) : Agrees s (Thorough.expand · t) (expandWithin n t) := by
  induction n generalizing s t with
  | zero => omega
  | succ n ih =>
      rw [expandWithin]
      refine .get_right ?_
      split
      · exact .succ (h.expandRoot_agrees ht hn fun x a hx ha hlow => ih hx ha hlow)
      · next hv => exact h.wellFormed.expand_still (by simpa using hv)

/-- The same with the bound of the store. -/
theorem expand_agrees_thorough (h : s.Ordered) (ht : s.Has t) :
    Agrees s (Thorough.expand · t) (expand t) :=
  h.expandWithin_agrees_thorough ht (Nat.lt_succ_of_le (h.height_meaning_le t))

/-- The occurs check with and without the flags agree. -/
theorem occurs_ends_thorough (h : s.Ordered) (var : Nat) (t : TypeId) :
    Ends (Thorough.occurs s var · t) (s.occurs var t) := by
  refine h.occurs_ends_of (fun n t hdown => ?_) t
  rw [occursWithin]
  cases hv : (s.summary t).hasVar with
  | false => exact h.wellFormed.occurs_still var hv
  | true =>
      refine .succ ?_
      simp only [Thorough.occurs, Bool.true_and]
      exact occursNode_ends hdown

end Ordered

end Skipping

/-- **Summaries are exact, and safe to go by.**  In every store that work of any kind leads
to, the summary of a type says that it has a variable, an impl parameter, a generic parameter
of the caller or an error exactly when one is written in it.  Of a type that is no reserved
slot it says further that it is a primitive, a reference, unsized or nominal exactly when its
outermost layer is.  So instantiating a type skips nothing that matters, and neither do
expanding it and looking for a variable in it where links do not run in circles: gone through
the whole type, each comes to an end with the same answer, and leaves the same store. -/
theorem Descent.summaries_exact {s : TypeStore} (h : Descent new s) {t : TypeId} (ht : s.Has t) :
    ((s.summary t).hasVar = true ↔ ∃ id, .var id ∈ (s.written t).atoms) ∧
    ((s.summary t).hasParam = true ↔ ∃ position, .param position ∈ (s.written t).atoms) ∧
    ((s.summary t).hasGeneric = true ↔ ∃ id, .generic id ∈ (s.written t).atoms) ∧
    ((s.summary t).hasError = true ↔ ∃ a ∈ (s.written t).atoms, a.IsError) ∧
    (¬ t.Reserved →
      ((s.summary t).primitive = true ↔ ∃ p, s.kind t = .prim p) ∧
      ((s.summary t).reference = true ↔ ∃ b, s.kind t = .ref b) ∧
      ((s.summary t).unsized = true ↔
        s.kind t = .prim .str ∨ s.kind t = .slice ∨ s.kind t = .object) ∧
      ((s.summary t).nominal = true ↔ s.kind t = .nominal)) ∧
    (∀ args, (∀ a ∈ args, s.Has a) →
      Agrees s (Thorough.instantiate args · t) (instantiate t args)) ∧
    (s.Acyclic → Agrees s (Thorough.expand · t) (expand t) ∧
      ∀ var, Ends (Thorough.occurs s var · t) (s.occurs var t)) := by
  have hs := (h.intact_grows new_intact).1
  have hwf := hs.wellFormed
  refine ⟨?_, ?_, ?_, Summary.Tracks.hasError.summary_iff hwf t, fun hslot => ?_,
    fun args hargs => hs.instantiate_agrees hargs ht, fun hacyclic => ?_⟩
  · rw [Summary.Tracks.hasVar.summary_iff hwf]
    grind
  · rw [Summary.Tracks.hasParam.summary_iff hwf]
    grind [Atom.IsParam]
  · rw [Summary.Tracks.hasGeneric.summary_iff hwf]
    grind
  · have hnode : ∀ slot, s.node t ≠ .atom (.reserved slot) := fun slot hn =>
      hslot ((h.reserved_iff ht).mp ⟨slot, hn⟩)
    exact ⟨Summary.Outermost.primitive.summary_iff hwf hnode,
      Summary.Outermost.reference.summary_iff hwf hnode,
      Summary.Outermost.unsized.summary_iff hwf hnode,
      Summary.Outermost.nominal.summary_iff hwf hnode⟩
  · have hordered : s.Ordered := ⟨hwf, hacyclic⟩
    exact ⟨hordered.expand_agrees_thorough ht, fun var => hordered.occurs_ends_thorough var t⟩

/-- A reference to a variable that comes to stand for `i32`: a variable is still written in it,
and expanding it goes by that. -/
theorem summaries_exact_reference :
    let v := newVar.run new
    let r := (refTo .shared v.1).run v.2
    let s := ((unify v.1 (.ofPrimitive .i32)).run r.2).2
    ((s.summary r.1).hasVar = true ∧ (s.summary r.1).reference = true) ∧
      Agrees s (Thorough.expand · r.1) (expand r.1) := by
  intro v r s
  obtain ⟨hquiet, hadd⟩ := new_sound.ordered.newVar_run
  obtain ⟨href, -, hmade, hnode⟩ := hquiet.finish.refTo_quiet .shared hadd.has
  have hi32 : r.2.Has (.ofPrimitive .i32) := (hquiet.trans href).has (by decide)
  have hvar : r.2.Has v.1 := href.has hadd.has
  obtain ⟨hsound, hbinds⟩ := (new_sound.quiet (hquiet.trans href)).unify_sound hvar hi32
  have hmake : Run new v.2 := (Run.nil new).act .var (by simp [Action.types])
  have hrefer : Run new r.2 :=
    hmake.act (.ref .shared v.1) (by simpa [Action.types] using hadd.has)
  have hrun : Run new s := hrefer.act (.unify v.1 (.ofPrimitive .i32))
    (by simpa [Action.types] using ⟨hvar, hi32⟩)
  have hhas : s.Has r.1 := hbinds.toExtends.grows.has hmade
  have hnode' : s.node r.1 = .app (.ref .shared) [v.1] :=
    (hbinds.toExtends.grows.node_eq hmade).trans hnode
  have hv : s.node v.1 = .atom (.var 0) :=
    ((hbinds.toExtends.grows.node_eq hvar).trans (href.node_eq hadd.has)).trans hadd.node
  have hwf : s.WellFormed := hsound.ordered.wellFormed
  have hdescent : Descent new s := .run (.nil new) hrun
  obtain ⟨hasVar, -, -, -, hlayer, -, hgates⟩ := hdescent.summaries_exact hhas
  have hslot : ¬ r.1.Reserved := fun hslot => by
    obtain ⟨slot, hslot⟩ := (hdescent.reserved_iff hhas).mpr hslot
    simp [hnode'] at hslot
  refine ⟨⟨hasVar.mpr ⟨0, ?_⟩, (hlayer hslot).2.1.mpr ⟨.shared, ?_⟩⟩,
    (hgates hsound.ordered.acyclic).1⟩
  · simp [hwf.written_of_app hnode', WellFormed.written_of_atom hv]
  · simp [kind, hnode', Node.kind, Former.kind]

end TypeStore

end DotCall
