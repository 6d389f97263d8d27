import DotCall.Proofs.CarriedOutcomes

/-!
# Types in shared variables

Two stores that come from a common one share its variables, whatever has been done to
each of them since.  A type of the one that means a tree in these variables is carried
into the other as that very tree: types may be added there, and nothing else changes
(`WellFormed.provides_build`).

Into the store that it is from, a type can be carried as well as expanded.  The one
rebuilds what the type means, the other goes through the type and skips what would not
change; but where nothing would change there is nothing to add either, so both make
the same types in the same order (`Ordered.expandWithin_parallel`).
-/

namespace DotCall.TypeStore

/-- Work of any kind by which one store comes from another.  Beyond what a `Run` does,
variables may be given any binding, so links may come to run in circles. -/
inductive Descent : TypeStore → TypeStore → Prop where
  | nil (s : TypeStore) : Descent s s
  | run {s m s' : TypeStore} (h : Descent s m) (hrun : Run m s') : Descent s s'
  | carry {s m other : TypeStore} {t : TypeId} (h : Descent s m) (hother : Descent new other)
      (ht : other.Has t) : Descent s ((carryFrom other t).run m).2
  | assign {s m : TypeStore} (h : Descent s m) (id : Nat) (b : Binding)
      (hb : ∀ t, b = .linked t → m.Has t) : Descent s ((assign id b).run m).2

/-- **The whole way** from an intact store leaves it intact and only adds to it. -/
theorem Descent.intact_grows {s s' : TypeStore} (h : Descent s s') (hs : s.Intact) :
    s'.Intact ∧ Grows s s' := by
  induction h with
  | nil s => exact ⟨hs, .refl s⟩
  | run _ hrun ih =>
      obtain ⟨hi, hg⟩ := ih hs
      obtain ⟨hi', hg'⟩ := hrun.intact_grows hi
      exact ⟨hi', hg.trans hg'⟩
  | @carry s m other t _ _ _ ih iho =>
      obtain ⟨hi, hg⟩ := ih hs
      have hformed := (iho new_intact).1.wellFormed.treeWithin_formed other.root (other.size + 1) t
      obtain ⟨hi', hg', -⟩ := hi.build_safely hformed
      exact ⟨hi', hg.trans hg'⟩
  | assign _ id b hb ih =>
      obtain ⟨hi, hg⟩ := ih hs
      obtain ⟨hi', hg', -⟩ := hi.assign_safely id hb
      exact ⟨hi', hg.trans hg'⟩

/-- What is reached with checkpoints closed innermost first is reached by work of any kind. -/
theorem Reached.descent {checkpoints : List Checkpoint} {s : TypeStore}
    (h : Reached checkpoints s) : Descent TypeStore.new s := by
  have hrun : Run TypeStore.new s := by
    induction h with
    | new => exact .nil _
    | act a _ ha ih => exact ih.act a ha
    | checkpoint _ ih => exact ih.checkpoint
    | @revert _ _ c _ ih => exact ih.revert c
    | @keep _ _ c _ ih => exact ih.keep c
  exact .run (.nil _) hrun

/-- Where only types were added, a tree reads as before. -/
theorem Adds.reads {s s' : TypeStore} (h : Adds s s') (hs : s.WellFormed) (hs' : s'.WellFormed)
    {tree : Tree} {t : TypeId} (ht : s.Reads tree t) : s'.Reads tree t :=
  ⟨h.grows.has ht.1, (hs.written_grows hs' h.grows ht.1).trans ht.2⟩

/-- Adding types makes no variable. -/
theorem Adds.count_eq {s s' : TypeStore} (h : Adds s s') :
    s'.variableCount = s.variableCount := by
  simp [variableCount, h.bindings]

/-- Run at `s`, the action adds types and nothing else, and answers with the handle of
the tree. -/
def Provides (s : TypeStore) (m : StateM TypeStore TypeId) (tree : Tree) : Prop :=
  let r := m.run s
  r.2.WellFormed ∧ Adds s r.2 ∧ r.2.Reads tree r.1

/-- Where what comes first only adds types, an action after it provides the tree. -/
theorem Adds.provides {α : Type} {s : TypeStore} {m : StateM TypeStore α}
    {f : α → StateM TypeStore TypeId} {tree : Tree} (h : Adds s (m.run s).2)
    (hf : (m.run s).2.Provides (f (m.run s).1) tree) : s.Provides (m >>= f) tree :=
  ⟨hf.1, h.trans hf.2.1, hf.2.2⟩

namespace WellFormed

variable {s : TypeStore} {t : TypeId}

/-- An atom whose variable the store knows is provided by interning it. -/
theorem provides_atom (h : s.WellFormed) {a : Atom}
    (hknown : ∀ id, a = .var id ∨ a = .generic id → id < s.variableCount) :
    s.Provides (intern (.atom a)) (.atom a) := by
  have hn : s.Admits (.atom a) :=
    .atom (fun id heq => hknown id (.inl heq)) (fun id heq => hknown id (.inr heq))
  obtain ⟨hwf, hadds, hhas, hnode⟩ := h.intern_run hn
  exact ⟨hwf, hadds, hhas, written_of_atom hnode⟩

/-- Each element in turn gives the handle of its tree. -/
theorem mapM_provides {α : Type} (h : s.WellFormed) {xs : List α}
    {one : α → StateM TypeStore TypeId} {tree : α → Tree}
    (hone : ∀ a ∈ xs, ∀ x, x.WellFormed → Adds s x → x.Provides (one a) (tree a)) :
    let r := (xs.mapM one).run s
    r.2.WellFormed ∧ Adds s r.2 ∧ List.Forall₂ (fun a u => r.2.Reads (tree a) u) xs r.1 := by
  induction xs generalizing s with
  | nil => exact ⟨h, .refl s, .nil⟩
  | cons a xs ih =>
      obtain ⟨hwf, hadds, hfirst⟩ := hone a List.mem_cons_self s h (.refl s)
      obtain ⟨hwf', hadds', hrest⟩ := ih hwf fun b hb x hx hsx =>
        hone b (List.mem_cons_of_mem _ hb) x hx (hadds.trans hsx)
      rw [run_mapM_cons]
      exact ⟨hwf', hadds.trans hadds', .cons (hadds'.reads hwf hwf' hfirst) hrest⟩

/-- A former around parts that are made in turn. -/
theorem provides_rebuild {α : Type} (h : s.WellFormed) {f : Former} {xs : List α}
    {one : α → StateM TypeStore TypeId} {tree : α → Tree} (htakes : f.Takes xs.length)
    (hone : ∀ a ∈ xs, ∀ x, x.WellFormed → Adds s x → x.Provides (one a) (tree a)) :
    s.Provides (xs.mapM one >>= fun parts => intern (.app f parts)) (.app f (xs.map tree)) := by
  obtain ⟨hwf, hadds, hparts⟩ := h.mapM_provides hone
  refine hadds.provides ?_
  generalize (xs.mapM one).run s = made at hwf hadds hparts
  obtain ⟨hhas, hwritten⟩ := reads_all hparts
  obtain ⟨hwf', hadds', hnew, hnode⟩ :=
    hwf.intern_run (.app hhas (by rwa [← hparts.length_eq]))
  refine ⟨hwf', hadds', hnew, ?_⟩
  rw [hwf'.written_of_app hnode, ← hwritten]
  exact congrArg _ (List.map_congr_left fun u hu => hwf.written_grows hwf' hadds'.grows (hhas u hu))

/-- **Building a tree** whose variables the store has adds types and nothing else. -/
theorem provides_build (h : s.WellFormed) {tree : Tree} (ht : tree.Formed)
    (hknown : ∀ id, .var id ∈ tree.atoms ∨ .generic id ∈ tree.atoms → id < s.variableCount) :
    s.Provides (build tree) tree := by
  induction ht generalizing s with
  | atom a =>
      have hatom := h.provides_atom (a := a) fun id hid =>
        hknown id (by simpa [eq_comm] using hid)
      cases a with
      | var id =>
          have hid : id < s.variableCount := hknown id (by simp)
          simpa [build, adoptVariable, Provides, run_bind, run_get, hid] using hatom
      | generic id =>
          have hid : id < s.variableCount := hknown id (by simp)
          simpa [build, adoptVariable, Provides, run_bind, run_get, hid] using hatom
      | _ => exact hatom
  | @app f ts htakes _ ih =>
      have hparts := h.provides_rebuild htakes fun t ht x hx hsx =>
        ih t ht hx fun id hid => hsx.count_eq ▸ hknown id
          (hid.imp (fun h => Tree.mem_atoms_app.mpr ⟨t, ht, h⟩)
            fun h => Tree.mem_atoms_app.mpr ⟨t, ht, h⟩)
      rwa [List.map_id', ← build_app] at hparts

end WellFormed

/-- What a type means is a tree in variables that the store has. -/
theorem Ordered.lt_of_mem_meaning {s : TypeStore} (h : s.Ordered) {t : TypeId} {id : Nat}
    (hid : .var id ∈ (s.meaning t).atoms ∨ .generic id ∈ (s.meaning t).atoms) :
    id < s.variableCount := by
  rcases hid with hid | hid
  · obtain ⟨u, hu⟩ := h.node_of_mem_meaning hid
    exact h.wellFormed.var_lt hu
  · obtain ⟨u, hu⟩ := h.node_of_mem_meaning hid
    exact h.wellFormed.generic_lt hu

/-- A loop over types each of which gives itself. -/
theorem mapM_of_still {f : TypeId → StateM TypeStore TypeId} {s : TypeStore} {ts : List TypeId}
    (h : ∀ t ∈ ts, (f t).run s = (t, s)) : (ts.mapM f).run s = (ts, s) := by
  induction ts with
  | nil => rfl
  | cons t ts ih =>
      have hrest := ih fun u hu => h u (List.mem_cons_of_mem _ hu)
      simp only [run_mapM_cons, h t List.mem_cons_self, hrest]

/-- Building what a type is written as gives the type back and adds nothing. -/
theorem WellFormed.build_written {s : TypeStore} (h : s.WellFormed) {t : TypeId} (ht : s.Has t) :
    (build (s.written t)).run s = (t, s) := by
  induction t using h.handle_induction with
  | step t ih =>
      have hintern := h.intern_of_node ht
      cases hn : s.node t with
      | atom a =>
          rw [written_of_atom hn]
          rw [hn] at hintern
          cases a with
          | var id => simpa [build, adoptVariable, run_bind, run_get, h.var_lt hn] using hintern
          | generic id =>
              simpa [build, adoptVariable, run_bind, run_get, h.generic_lt hn] using hintern
          | _ => exact hintern
      | app f args =>
          have hmem : ∀ a ∈ args, a ∈ (s.node t).args := by simp [hn, Node.args]
          have hloop : (args.mapM (build ∘ s.written)).run s = (args, s) :=
            mapM_of_still fun a ha => ih a (hmem a ha) (h.has_arg (hmem a ha))
          rw [h.written_of_app hn, build_app, List.mapM_map, run_bind, hloop]
          rw [hn] at hintern
          exact hintern

/-- The tree that a type is expanded to. -/
def expanded (s : TypeStore) (t : TypeId) : Tree :=
  let r := (expand t).run s
  r.2.written r.1

/-- In a store in order, what expanding writes down is the meaning. -/
theorem Ordered.expanded_eq {s : TypeStore} (h : s.Ordered) {t : TypeId} (ht : s.Has t) :
    s.expanded t = s.meaning t :=
  (h.expand_run ht).2.2

/-- The stores have the same types at the same handles. -/
structure SameTypes (x y : TypeStore) : Prop where
  entries : y.entries = x.entries
  handles : y.handles = x.handles

/-- From stores with the same types the actions lead to such stores again, and to the
same answer. -/
def Parallel {α : Type} (x y : TypeStore) (m m' : StateM TypeStore α) : Prop :=
  (m'.run y).1 = (m.run x).1 ∧ SameTypes (m.run x).2 (m'.run y).2

/-- Stores with the same types answer alike when a node is interned, and still have the
same types. -/
theorem SameTypes.intern {x y : TypeStore} (h : SameTypes x y) (n : Node) :
    Parallel x y (intern n) (intern n) := by
  unfold Parallel
  cases hx : x.handles[n]? with
  | some t =>
      have hy : y.handles[n]? = some t := by rw [h.handles, hx]
      rw [intern_of_some hx, intern_of_some hy]
      exact ⟨rfl, h⟩
  | none =>
      have hy : y.handles[n]? = none := by rw [h.handles, hx]
      rw [intern_of_none hx, intern_of_none hy]
      refine ⟨by simp [size, h.entries], ?_, ?_⟩
      · simp [push, h.entries, summary_congr h.entries]
      · simp [push, h.entries, h.handles]

/-- Interning a compound node of the answers goes in parallel, too. -/
theorem Parallel.intern_app {x y : TypeStore} {m m' : StateM TypeStore (List TypeId)}
    (h : Parallel x y m m') (f : Former) :
    Parallel x y (m >>= fun args => TypeStore.intern (.app f args))
      (m' >>= fun args => TypeStore.intern (.app f args)) := by
  obtain ⟨hanswer, hsame⟩ := h
  unfold Parallel
  rw [run_bind, run_bind, hanswer]
  exact hsame.intern _

/-- Two loops whose steps go in parallel as long as `I` holds, which each step keeps up. -/
theorem mapM_parallel {α : Type} {f g : α → StateM TypeStore TypeId} {xs : List α}
    (I : TypeStore → TypeStore → Prop)
    (hone : ∀ a ∈ xs, ∀ x y, SameTypes x y → I x y →
      Parallel x y (f a) (g a) ∧ I ((f a).run x).2 ((g a).run y).2)
    {x y : TypeStore} (hsame : SameTypes x y) (h : I x y) :
    Parallel x y (xs.mapM f) (xs.mapM g) := by
  induction xs generalizing x y with
  | nil => exact ⟨rfl, hsame⟩
  | cons a xs ih =>
      obtain ⟨⟨hanswer, hsame'⟩, hnext⟩ := hone a List.mem_cons_self x y hsame h
      obtain ⟨hanswers, hlast⟩ := ih (fun b hb => hone b (List.mem_cons_of_mem _ hb)) hsame' hnext
      unfold Parallel
      rw [run_mapM_cons, run_mapM_cons]
      exact ⟨congrArg₂ List.cons hanswer hanswers, hlast⟩

namespace Ordered

variable {s : TypeStore} {t : TypeId}

/-- **Two ways down a type.**  Expanding a type and building what it means answer with
the same handle and make the same types. -/
theorem expandWithin_parallel (h : s.Ordered) (ht : s.Has t) {n : Nat}
    (hn : (s.meaning t).height < n) {y : TypeStore} (hy : y.WellFormed) (hsame : SameTypes s y)
    (hknown : ∀ id, .var id ∈ (s.meaning t).atoms ∨ .generic id ∈ (s.meaning t).atoms →
      id < y.variableCount) :
    Parallel s y (expandWithin n t) (build (s.meaning t)) := by
  induction n generalizing s t y with
  | zero => omega
  | succ n ih =>
      have hpresent : ∀ {u}, s.Has u → (build (s.written u)).run y = (u, y) := fun {u} hu => by
        rw [← written_congr hsame.entries]
        exact hy.build_written ((has_congr hsame.entries).mpr hu)
      unfold Parallel
      cases hv : (s.summary t).hasVar with
      | false =>
          rw [expandWithin_of_no_var hv, h.meaning_of_no_var hv, hpresent ht]
          exact ⟨rfl, hsame⟩
      | true =>
          have hshort := (h.findRoot_run t).2
          have hq : Quiet s ((findRoot t).run s).2 := .of_shortens hshort h
          have hhas : s.Has (s.root t) := h.has_root ht
          have hsame' : SameTypes ((findRoot t).run s).2 y :=
            ⟨hsame.entries.trans hshort.entries.symm, hsame.handles.trans hshort.handles.symm⟩
          cases hnode : s.node (s.root t) with
          | atom a =>
              rw [h.expandWithin_of_atom ht hv hnode, meaning_of_atom hnode,
                ← WellFormed.written_of_atom hnode, hpresent hhas]
              exact ⟨rfl, hsame'⟩
          | app f args =>
              rw [h.expandWithin_of_app ht hv hnode, h.meaning_of_app hnode, build_app,
                List.mapM_map]
              rw [h.meaning_of_app hnode] at hknown
              refine (mapM_parallel (fun x z => Quiet s x ∧ z.WellFormed ∧ Adds y z) ?_ hsame'
                ⟨hq, hy, .refl y⟩).intern_app f
              rintro a ha x z hxz ⟨hx, hz, hadds⟩
              obtain ⟨harg, hlow⟩ := h.arg_of_root hnode ha
              have hmeaning : x.meaning a = s.meaning a := hx.meaning_eq harg
              have hvars : ∀ id, .var id ∈ (s.meaning a).atoms ∨
                  .generic id ∈ (s.meaning a).atoms → id < z.variableCount := by
                have hup : ∀ b, b ∈ (s.meaning a).atoms →
                    b ∈ (Tree.app f (args.map s.meaning)).atoms :=
                  fun b hb => Tree.mem_atoms_app.mpr ⟨_, List.mem_map_of_mem ha, hb⟩
                rw [hadds.count_eq]
                exact fun id hid => hknown id (hid.imp (hup _) (hup _))
              have hformed := h.wellFormed.treeWithin_formed s.root (s.size + 1) a
              obtain ⟨hz', hadds', -⟩ := hz.provides_build hformed hvars
              have hheight : (x.meaning a).height < n := by rw [hmeaning]; omega
              have hx' := (hx.finish.expandWithin_run (hx.has harg) hheight).1
              have hparallel := ih hx.finish (hx.has harg) hheight hz hxz (hmeaning ▸ hvars)
              rw [hmeaning] at hparallel
              exact ⟨hparallel, hx.trans hx', hz', hadds.trans hadds'⟩

/-- Expanding a type and carrying it over into its own store take the same steps. -/
theorem expand_parallel (h : s.Ordered) (ht : s.Has t) : Parallel s s (expand t) (carryFrom s t) :=
  h.expandWithin_parallel ht (Nat.lt_succ_of_le (h.height_meaning_le t)) h.wellFormed ⟨rfl, rfl⟩
    fun _ => h.lt_of_mem_meaning

end Ordered

/-- **A type in shared variables is carried over as it is.**  Let two stores come from a
common one by work of any kind, the links of the second not running in a circle.  A type
of the second that is expanded to a tree in variables of the common store is carried
into the first as the one handle that is written as this tree; no variable is made, no
binding changes, and what was there stays.  And carried from the store itself, any type
is the handle that expanding it gives. -/
theorem carryFrom_shared {base s other : TypeStore} {t : TypeId} (hbase : Descent new base)
    (hs : Descent base s) (hother : Descent base other) (hacyclic : other.Acyclic)
    (ht : other.Has t)
    (hshared : ∀ id, .var id ∈ (other.expanded t).atoms ∨ .generic id ∈ (other.expanded t).atoms →
      id < base.variableCount) :
    let r := (carryFrom other t).run s
    (∀ u, r.2.Has u ∧ r.2.written u = other.expanded t ↔ u = r.1) ∧
      (r.2.bindings = s.bindings ∧ r.2.trail = s.trail ∧
        r.2.openCheckpoints = s.openCheckpoints) ∧
      (∀ u, s.Has u → r.2.Has u ∧ r.2.node u = s.node u ∧ r.2.summary u = s.summary u) ∧
      (s.Acyclic → ∀ u, s.Has u → ((carryFrom s u).run s).1 = ((expand u).run s).1) := by
  have hintact := (hbase.intact_grows new_intact).1
  obtain ⟨hs, hgrows⟩ := hs.intact_grows hintact
  have hwf := (hother.intact_grows hintact).1.wellFormed
  rw [Ordered.expanded_eq ⟨hwf, hacyclic⟩ ht] at hshared ⊢
  obtain ⟨hwf', hadds, hhas, hwritten⟩ := hs.wellFormed.provides_build
    (hwf.treeWithin_formed other.root (other.size + 1) t)
    fun id hid => Nat.lt_of_lt_of_le (hshared id hid) hgrows.count_le
  refine ⟨fun u => ⟨fun hu => ?_, fun hu => hu ▸ ⟨hhas, hwritten⟩⟩,
    ⟨hadds.bindings, hadds.trail, hadds.opens⟩, fun u hu => ?_, fun hacyclic' u hu => ?_⟩
  · exact hwf'.written_injective hu.1 hhas (hu.2.trans hwritten.symm)
  · exact ⟨hadds.grows.has hu, hadds.grows.node_eq hu, hadds.grows.summary_eq hu⟩
  · exact (Ordered.expand_parallel ⟨hs.wellFormed, hacyclic'⟩ hu).1

/-- A store and its copy have one variable in common.  In the copy it comes to stand for
`i32`, and a reference to it is made; in the store it is linked to itself.  The reference
is carried over as `&i32`, and the store keeps its circle. -/
theorem carryFrom_shared_reference :
    let v := newVar.run new
    let other := (refTo .shared v.1).run ((unify v.1 (.ofPrimitive .i32)).run v.2).2
    let s := ((assign 0 (.linked v.1)).run v.2).2
    let r := (carryFrom other.2 other.1).run s
    r.2.written r.1 = .app (.ref .shared) [.atom (.prim .i32)] ∧ r.2.binding 0 = .linked v.1 := by
  intro v other s r
  obtain ⟨hquiet, hadd⟩ := new_sound.ordered.newVar_run
  have hi32 : v.2.Has (.ofPrimitive .i32) := hquiet.has (by decide)
  obtain ⟨hsound, hbinds⟩ := (new_sound.quiet hquiet).unify_sound hadd.has hi32
  have hv : ((unify v.1 (.ofPrimitive .i32)).run v.2).2.Has v.1 :=
    hbinds.toExtends.grows.has hadd.has
  obtain ⟨href, -, href', -⟩ := hsound.ordered.refTo_quiet .shared hv
  have hhas : other.2.Has other.1 := href'
  have hbase : Descent new v.2 := .run (.nil new) ((Run.nil new).act .var (by simp [Action.types]))
  have hother : Descent v.2 other.2 := by
    have hunify : Run v.2 ((unify v.1 (.ofPrimitive .i32)).run v.2).2 :=
      (Run.nil v.2).act (.unify v.1 (.ofPrimitive .i32)) (by simpa [Action.types] using
        ⟨hadd.has, hi32⟩)
    exact .run (.nil v.2) (hunify.act (.ref .shared v.1) (by simpa [Action.types] using hv))
  have hs : Descent v.2 s := .assign (.nil v.2) 0 (.linked v.1) (by simpa using hadd.has)
  have hmeaning : other.2.meaning other.1 = .app (.ref .shared) [.atom (.prim .i32)] :=
    show ((refTo .shared (newVar.run new).1).run
      ((unify (newVar.run new).1 (.ofPrimitive .i32)).run (newVar.run new).2).2).2.meaning
        ((refTo .shared (newVar.run new).1).run
          ((unify (newVar.run new).1 (.ofPrimitive .i32)).run (newVar.run new).2).2).1 = _ by cbv
  have hexpanded : other.2.expanded other.1 = .app (.ref .shared) [.atom (.prim .i32)] :=
    (href.finish.expanded_eq hhas).trans hmeaning
  obtain ⟨htree, hsame, -⟩ := carryFrom_shared hbase hs hother href.finish.acyclic hhas
    (by rw [hexpanded]; simp)
  have hbinding : r.2.binding 0 = s.binding 0 := by rw [binding, binding, hsame.1]
  have hlinked : s.binding 0 = if 0 = 0 then .linked v.1 else v.2.binding 0 :=
    assigned_binding (Nat.lt_of_lt_of_eq (Nat.succ_pos _) hadd.count.symm)
  exact ⟨((htree r.1).mpr rfl).2.trans hexpanded, hbinding.trans (by rw [hlinked, if_pos rfl])⟩

end DotCall.TypeStore
