import DotCall.Proofs.NewVariables

/-!
# Types that are rebuilt

Expanding a type rebuilds it with its linked variables replaced: the result is
written as what the type means.  Instantiating a type rebuilds it with its
parameters replaced.  Both skip the parts in which, by their summary, nothing
would change, and both are quiet.
-/

namespace DotCall

namespace Tree

mutual

/-- A tree with its parameters replaced; one without an argument stays. -/
def fill (args : List Tree) : Tree → Tree
  | .atom (.param position) => args[position]?.getD (.atom (.param position))
  | .atom a => .atom a
  | .app f ts => .app f (fillAll args ts)

/-- Several trees with their parameters replaced. -/
def fillAll (args : List Tree) : List Tree → List Tree
  | [] => []
  | t :: ts => t.fill args :: fillAll args ts

end

variable {args : List Tree} {t : Tree} {ts : List Tree} {f : Former}

/-- The second half of the mutual recursion applies the first to each tree. -/
theorem fillAll_eq_map : fillAll args ts = ts.map (fill args) := by
  induction ts with
  | nil => rfl
  | cons t ts ih => simp [fillAll, ih]

@[simp] theorem fill_app : (Tree.app f ts).fill args = .app f (ts.map (fill args)) := by
  simp [fill, fillAll_eq_map]

@[simp] theorem fill_param {position : Nat} :
    (Tree.atom (.param position)).fill args = args[position]?.getD (.atom (.param position)) := by
  simp [fill]

/-- Atoms other than parameters stay. -/
theorem fill_atom {a : Atom} (h : ¬ a.IsParam) : (Tree.atom a).fill args = .atom a := by
  cases a with
  | param position => exact absurd ⟨position, rfl⟩ h
  | _ => simp [fill]

/-- Where no parameter occurs nothing is replaced. -/
theorem fill_of_no_param (h : ∀ a ∈ t.atoms, ¬ a.IsParam) : t.fill args = t := by
  induction t with
  | atom a => exact fill_atom (h a (by simp))
  | app f ts ih =>
      rw [fill_app, List.map_congr_left (g := id) fun t ht => ih t ht fun a ha => h a ?_,
        List.map_id]
      exact mem_atoms_app.mpr ⟨t, ht, ha⟩

/-- The atoms after filling in: those for which nothing is put, and those of the
arguments that are used. -/
theorem mem_atoms_fill_iff {a : Atom} :
    a ∈ (t.fill args).atoms ↔
      (a ∈ t.atoms ∧ ∀ position < args.length, a ≠ .param position) ∨
        ∃ position u, .param position ∈ t.atoms ∧ args[position]? = some u ∧ a ∈ u.atoms := by
  induction t with
  | atom b =>
      cases b with
      | param position =>
          rw [fill_param]
          cases harg : args[position]? with
          | none =>
              have hle := List.getElem?_eq_none_iff.mp harg
              simp only [Option.getD_none, atoms_atom, List.mem_singleton]
              constructor
              · rintro rfl
                exact .inl ⟨rfl, fun p hp heq => by
                  have := Atom.param.inj heq
                  omega⟩
              · rintro (⟨h, -⟩ | ⟨p, u, hp, hu, -⟩)
                · exact h
                · rw [Atom.param.inj hp, harg] at hu
                  cases hu
          | some u =>
              obtain ⟨hlt, -⟩ := List.getElem?_eq_some_iff.mp harg
              simp only [Option.getD_some, atoms_atom, List.mem_singleton]
              constructor
              · exact fun h => .inr ⟨position, u, rfl, harg, h⟩
              · rintro (⟨rfl, h⟩ | ⟨p, v, hp, hv, ha⟩)
                · exact absurd rfl (h position hlt)
                · rw [Atom.param.inj hp, harg] at hv
                  exact Option.some.inj hv ▸ ha
      | _ =>
          simp only [fill, atoms_atom, List.mem_singleton]
          grind
  | app f ts ih =>
      simp only [fill_app, mem_atoms_app, List.mem_map]
      constructor
      · rintro ⟨_, ⟨t, ht, rfl⟩, ha⟩
        rcases (ih t ht).mp ha with ⟨h, hne⟩ | ⟨p, u, hp, hu, ha⟩
        · exact .inl ⟨⟨t, ht, h⟩, hne⟩
        · exact .inr ⟨p, u, ⟨t, ht, hp⟩, hu, ha⟩
      · rintro (⟨⟨t, ht, h⟩, hne⟩ | ⟨p, u, ⟨t, ht, hp⟩, hu, ha⟩)
        · exact ⟨_, ⟨t, ht, rfl⟩, (ih t ht).mpr (.inl ⟨h, hne⟩)⟩
        · exact ⟨_, ⟨t, ht, rfl⟩, (ih t ht).mpr (.inr ⟨p, u, hp, hu, ha⟩)⟩

end Tree

namespace TypeStore

variable {s : TypeStore} {t : TypeId}

/-- What is written without a variable is also meant. -/
theorem Ordered.meaning_of_no_var (h : s.Ordered) (hv : (s.summary t).hasVar = false) :
    s.meaning t = s.written t := by
  refine h.meaning_eq_written fun id hid => absurd ?_ (Bool.eq_false_iff.mp hv)
  exact (Summary.Tracks.hasVar.summary_iff h.wellFormed t).mpr ⟨_, hid, id, rfl⟩

/-- The handle `u` is one of the store and is written as `tree`. -/
def Reads (s : TypeStore) (tree : Tree) (u : TypeId) : Prop := s.Has u ∧ s.written u = tree

/-- A type reads the same after quiet work. -/
theorem Quiet.reads {s' : TypeStore} (h : Quiet s s') {tree : Tree} (hu : s.Reads tree t) :
    s'.Reads tree t :=
  ⟨h.has hu.1, (h.written_eq hu.1).trans hu.2⟩

/-- Types that read as trees one by one are in the store and are written as these trees in
order. -/
theorem reads_all {α : Type} {tree : α → Tree} {xs : List α} {us : List TypeId}
    (h : List.Forall₂ (fun x u => s.Reads (tree x) u) xs us) :
    (∀ u ∈ us, s.Has u) ∧ us.map s.written = xs.map tree := by
  induction h with
  | nil => simp
  | cons hu _ ih => exact ⟨by simpa using ⟨hu.1, ih.1⟩, by simp [hu.2, ih.2]⟩

/-- Rebuilding a compound type from rebuilt arguments. -/
theorem Ordered.rebuild_run (h : s.Ordered) {f : Former} {args parts : List TypeId}
    {tree : TypeId → Tree} (htakes : f.Takes args.length)
    (hparts : List.Forall₂ (fun a u => s.Reads (tree a) u) args parts) :
    let r := (intern (.app f parts)).run s
    Quiet s r.2 ∧ r.2.Reads (.app f (args.map tree)) r.1 := by
  obtain ⟨hhas, hwritten⟩ := reads_all hparts
  obtain ⟨hq, -, hnew, hnode⟩ := h.intern_quiet hhas (hparts.length_eq ▸ htakes)
  refine ⟨hq, hnew, ?_⟩
  rw [hq.finish.wellFormed.written_of_app hnode, ← hwritten]
  exact congrArg _ (List.map_congr_left fun u hu => hq.written_eq (hhas u hu))

/-- Rebuilding each argument and then the whole. -/
theorem Ordered.rebuildAll_run (h : s.Ordered) {f : Former} {args : List TypeId}
    {tree : TypeId → Tree} {one : TypeId → StateM TypeStore TypeId} (htakes : f.Takes args.length)
    (hone : ∀ a ∈ args, Calm s (one a) fun x u => x.Reads (tree a) u) :
    let r := (args.mapM one >>= fun parts => intern (.app f parts)).run s
    Quiet s r.2 ∧ r.2.Reads (.app f (args.map tree)) r.1 := by
  obtain ⟨hq, hparts⟩ := Calm.mapM (P := fun x a u => x.Reads (tree a) u)
    (fun hq hu => hq.reads hu) hone s (.refl h)
  obtain ⟨hq', hreads⟩ := hq.finish.rebuild_run htakes hparts
  exact ⟨hq.trans hq', hreads⟩

/-- A type without variables is its own expansion. The summary alone decides, so the type
is not gone through. -/
theorem expandWithin_of_no_var (hv : (s.summary t).hasVar = false) (n : Nat) :
    (expandWithin n t).run s = (t, s) := by
  cases n with
  | zero => rfl
  | succ n =>
      simp only [expandWithin, run_bind, run_get, hv]
      rfl

/-- A variable is expanded to its root when that is an atom. -/
theorem Ordered.expandWithin_of_atom (h : s.Ordered) (ht : s.Has t)
    (hv : (s.summary t).hasVar = true) {a : Atom} (hnode : s.node (s.root t) = .atom a) (n : Nat) :
    (expandWithin (n + 1) t).run s = (s.root t, ((findRoot t).run s).2) := by
  obtain ⟨hroot, hq⟩ := h.findRoot_quiet t
  simp only [expandWithin, run_bind, run_get, hv, if_true, hroot, hq.node_eq (h.has_root ht), hnode,
    run_pure]

/-- A type whose root is compound is built again from its expanded arguments. -/
theorem Ordered.expandWithin_of_app (h : s.Ordered) (ht : s.Has t)
    (hv : (s.summary t).hasVar = true) {f : Former} {args : List TypeId}
    (hnode : s.node (s.root t) = .app f args) (n : Nat) :
    (expandWithin (n + 1) t).run s =
      (args.mapM (expandWithin n) >>= fun args => intern (.app f args)).run
        ((findRoot t).run s).2 := by
  obtain ⟨hroot, hq⟩ := h.findRoot_quiet t
  simp only [expandWithin, run_bind, run_get, hv, if_true, hroot, hq.node_eq (h.has_root ht), hnode]

/-- What an argument means is lower than the whole. -/
theorem Ordered.arg_of_root (h : s.Ordered) {f : Former} {args : List TypeId}
    (hnode : s.node (s.root t) = .app f args) {a : TypeId} (ha : a ∈ args) :
    s.Has a ∧ (s.meaning a).height < (s.meaning t).height := by
  refine ⟨h.wellFormed.has_arg (t := s.root t) (by simpa [hnode, Node.args] using ha), ?_⟩
  rw [h.meaning_of_app hnode]
  exact Tree.height_lt_app (List.mem_map_of_mem ha)

/-- **Expanding** gives a type that is written as the other one means, with any bound
above the height of that meaning, and is quiet. -/
theorem Ordered.expandWithin_run (h : s.Ordered) (ht : s.Has t) {n : Nat}
    (hn : (s.meaning t).height < n) :
    let r := (expandWithin n t).run s
    Quiet s r.2 ∧ r.2.Reads (s.meaning t) r.1 := by
  induction n generalizing s t with
  | zero => omega
  | succ n ih =>
      cases hv : (s.summary t).hasVar with
      | false =>
          rw [expandWithin_of_no_var hv]
          exact ⟨.refl h, ht, (h.meaning_of_no_var hv).symm⟩
      | true =>
          have hq := (h.findRoot_quiet t).2
          have hhas : s.Has (s.root t) := h.has_root ht
          cases hnode : s.node (s.root t) with
          | atom a =>
              rw [h.expandWithin_of_atom ht hv hnode]
              refine ⟨hq, hq.has hhas, ?_⟩
              rw [hq.written_eq hhas, meaning_of_atom hnode, WellFormed.written_of_atom hnode]
          | app f args =>
              have hone : ∀ a ∈ args, Calm ((findRoot t).run s).2 (expandWithin n a)
                  fun x u => x.Reads (s.meaning a) u := by
                intro a ha x hx
                obtain ⟨harg, hlow⟩ := h.arg_of_root hnode ha
                have hsame : x.meaning a = s.meaning a := (hq.trans hx).meaning_eq harg
                rw [← hsame]
                exact ih hx.finish ((hq.trans hx).has harg) (by rw [hsame]; omega)
              rw [h.expandWithin_of_app ht hv hnode, h.meaning_of_app hnode]
              obtain ⟨hq', hreads⟩ := hq.finish.rebuildAll_run (h.wellFormed.takes hnode) hone
              exact ⟨hq.trans hq', hreads⟩

/-- **Expansion.**  The expanded type is written as what the type means. -/
theorem Ordered.expand_run (h : s.Ordered) (ht : s.Has t) :
    let r := (expand t).run s
    Quiet s r.2 ∧ r.2.Reads (s.meaning t) r.1 :=
  h.expandWithin_run ht (Nat.lt_succ_of_le (h.height_meaning_le t))

/-- **Instantiating** gives a type that is written as the other with its parameters filled
in, and is quiet. Arguments come before the types that contain them, so the handle is
bound enough. -/
theorem Ordered.instantiateWithin_run (h : s.Ordered) {args : List TypeId}
    (hargs : ∀ a ∈ args, s.Has a) (ht : s.Has t) {n : Nat} (hn : t.index < n) :
    let r := (instantiateWithin args n t).run s
    Quiet s r.2 ∧ r.2.Reads ((s.written t).fill (args.map s.written)) r.1 := by
  induction n generalizing s t with
  | zero => omega
  | succ n ih =>
      cases hp : (s.summary t).hasParam with
      | false =>
          have hrun : (instantiateWithin args (n + 1) t).run s = (t, s) := by
            simp only [instantiateWithin, run_bind, run_get, hp]
            rfl
          rw [hrun]
          refine ⟨.refl h, ht, (Tree.fill_of_no_param fun a ha hbad => ?_).symm⟩
          have := (Summary.Tracks.hasParam.summary_iff h.wellFormed t).mpr ⟨a, ha, hbad⟩
          simp [hp] at this
      | true =>
          cases hnode : s.node t with
          | atom a =>
              rw [WellFormed.written_of_atom hnode]
              cases a with
              | param position =>
                  have hrun : (instantiateWithin args (n + 1) t).run s =
                      (args[position]?.getD t, s) := by
                    simp only [instantiateWithin, run_bind, run_get, hp, if_true, hnode, run_pure]
                  rw [hrun, Tree.fill_param, List.getElem?_map]
                  refine ⟨.refl h, ?_⟩
                  cases harg : args[position]? with
                  | none => exact ⟨ht, WellFormed.written_of_atom hnode⟩
                  | some u => exact ⟨hargs u (List.mem_of_getElem? harg), rfl⟩
              | _ =>
                  have hrun : (instantiateWithin args (n + 1) t).run s = (t, s) := by
                    simp only [instantiateWithin, run_bind, run_get, hp, if_true, hnode, run_pure]
                  rw [hrun, Tree.fill_atom (by simp [Atom.IsParam])]
                  exact ⟨.refl h, ht, WellFormed.written_of_atom hnode⟩
          | app f parts =>
              have hrun : (instantiateWithin args (n + 1) t).run s =
                  (parts.mapM (instantiateWithin args n) >>= fun parts =>
                    intern (.app f parts)).run s := by
                simp only [instantiateWithin, run_bind, run_get, hp, if_true, hnode]
              rw [hrun, h.wellFormed.written_of_app hnode, Tree.fill_app, List.map_map]
              refine h.rebuildAll_run (h.wellFormed.takes hnode) fun a ha x hx => ?_
              have hmem : a ∈ (s.node t).args := by simpa [hnode, Node.args] using ha
              have hlt := h.wellFormed.args_lt hmem
              have hsame : args.map x.written = args.map s.written :=
                List.map_congr_left fun b hb => hx.written_eq (hargs b hb)
              have harg := h.wellFormed.has_arg hmem
              rw [Function.comp_apply, ← hx.written_eq harg, ← hsame]
              exact ih hx.finish (fun b hb => hx.has (hargs b hb)) (hx.has harg) (by omega)

/-- **Instantiation.**  The instance is written as the type with its parameters
replaced. -/
theorem Ordered.instantiate_run (h : s.Ordered) {args : List TypeId}
    (hargs : ∀ a ∈ args, s.Has a) (ht : s.Has t) :
    let r := (instantiate t args).run s
    Quiet s r.2 ∧ r.2.Reads ((s.written t).fill (args.map s.written)) r.1 :=
  h.instantiateWithin_run hargs ht (Nat.lt_succ_self _)

end TypeStore

end DotCall
