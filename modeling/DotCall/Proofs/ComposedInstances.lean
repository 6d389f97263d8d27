import DotCall.Proofs.SharedTypes
import DotCall.Proofs.PatternTrees

/-!
# Instances of instances

Replacing the parameters of a type and then those of the result is the same as replacing
them once, by the composed arguments.  On trees that is an induction (`Tree.fill_fill`); in a
store it holds of the handles, because instantiating a type makes the type that is written
as the filled tree, whatever was made in the meantime, and each type is kept once.

Where no variable is written in the type, expanding an instance is in the same way
instantiating it by the expanded arguments.
-/

namespace DotCall

namespace Tree

/-- **Composed arguments.**  Filling in twice is filling in once: a parameter with an
argument takes that argument, itself filled in, and any other keeps its place in the
second list. -/
theorem fill_fill (t : Tree) (args args' : List Tree) :
    (t.fill args).fill args' = t.fill (args.map (fill args') ++ args'.drop args.length) := by
  induction t with
  | atom a =>
      cases a with
      | param position =>
          rw [fill_param, fill_param]
          by_cases hlt : position < args.length
          · rw [List.getElem?_append_left (by simpa using hlt)]
            simp [List.getElem?_eq_getElem hlt]
          · have hle : args.length ≤ position := Nat.le_of_not_lt hlt
            rw [List.getElem?_append_right (by simpa using hle), List.getElem?_drop,
              List.getElem?_eq_none hle, Option.getD_none, fill_param, List.length_map,
              Nat.add_sub_cancel' hle]
      | _ => rfl
  | app f ts ih =>
      simp only [fill_app, List.map_map, Tree.app.injEq, true_and]
      exact List.map_congr_left ih

/-- Parameters that are replaced by themselves stay. -/
theorem fill_params (t : Tree) (n : Nat) :
    t.fill ((List.range n).map fun i => .atom (.param i)) = t := by
  induction t with
  | atom a =>
      cases a with
      | param position =>
          rw [fill_param, List.getElem?_map]
          by_cases hlt : position < n
          · simp [List.getElem?_range hlt]
          · simp [List.getElem?_eq_none (l := List.range n) (by simpa using hlt)]
      | _ => rfl
  | app f ts ih =>
      rw [fill_app, List.map_congr_left (g := id) ih, List.map_id]

end Tree

namespace TypeStore

/-- Run one after the other, in either order and with work of the given kind in between, the
actions answer with the same handle. -/
structure SameAnswer (between : TypeStore → TypeStore → Prop) (s : TypeStore)
    (m m' : StateM TypeStore TypeId) : Prop where
  then_second : ∀ s', between (m.run s).2 s' → (m'.run s').1 = (m.run s).1
  then_first : ∀ s', between (m'.run s).2 s' → (m.run s').1 = (m'.run s).1

section Answers

variable {s s' : TypeStore} {tree : Tree} {t u : TypeId} {m m' : StateM TypeStore TypeId}

/-- A tree is read from one handle only, so types that read alike are the same. -/
theorem Reads.unique (ht : s.Reads tree t) (hu : s.Reads tree u) (h : s.WellFormed) : t = u :=
  h.written_injective ht.1 hu.1 (ht.2.trans hu.2.symm)

/-- A tree reads the same in a store that has grown. -/
theorem Reads.grows (ht : s.Reads tree t) (h : s.WellFormed) (h' : s'.WellFormed)
    (hg : Grows s s') : s'.Reads tree t :=
  ⟨hg.has ht.1, (h.written_grows h' hg ht.1).trans ht.2⟩

/-- Wherever it is run from here on, the action adds types only and answers with the handle
of the tree. -/
def Answers (s : TypeStore) (m : StateM TypeStore TypeId) (tree : Tree) : Prop :=
  ∀ x, x.WellFormed → Grows s x → x.Provides m tree

/-- Work that only adds types leaves the store intact. -/
theorem Intact.of_adds (h : s.Intact) (hwf : s'.WellFormed) (hadds : Adds s s') : s'.Intact where
  wellFormed := hwf
  trail_has he hlinked := hadds.grows.has (h.trail_has (hadds.trail ▸ he) hlinked)

/-- Actions that answer with the handle of one tree answer alike, whatever is done in
between. -/
theorem Intact.sameAnswer (h : s.Intact) (hm : s.Answers m tree) (hm' : s.Answers m' tree) :
    SameAnswer Descent s m m' := by
  have hboth : ∀ {m m'}, s.Answers m tree → s.Answers m' tree →
      ∀ s', Descent (m.run s).2 s' → (m'.run s').1 = (m.run s).1 := by
    intro m m' hm hm' s' hwork
    obtain ⟨hwf, hadds, hread⟩ := hm s h.wellFormed (.refl s)
    obtain ⟨hi', hg'⟩ := hwork.intact_grows (h.of_adds hwf hadds)
    obtain ⟨hwf'', hadds', hread'⟩ := hm' s' hi'.wellFormed (hadds.grows.trans hg')
    exact hread'.unique (hread.grows hwf hwf'' (hg'.trans hadds'.grows)) hwf''
  exact ⟨hboth hm hm', hboth hm' hm⟩

/-- The same where the work in between is quiet. -/
theorem Ordered.sameAnswer (h : s.Ordered) (hm : Calm s m fun x u => x.Reads tree u)
    (hm' : Calm s m' fun x u => x.Reads tree u) : SameAnswer Quiet s m m' := by
  have hboth : ∀ {m m'}, (Calm s m fun x u => x.Reads tree u) →
      (Calm s m' fun x u => x.Reads tree u) →
      ∀ s', Quiet (m.run s).2 s' → (m'.run s').1 = (m.run s).1 := by
    intro m m' hm hm' s' hwork
    obtain ⟨hq, hread⟩ := hm s (.refl h)
    obtain ⟨hq', hread'⟩ := hm' s' (hq.trans hwork)
    exact hread'.unique ((hwork.trans hq').reads hread) hq'.finish.wellFormed
  exact ⟨hboth hm hm', hboth hm' hm⟩

end Answers

section Instances

variable {s : TypeStore} {t : TypeId} {args args' : List TypeId}

/-- A type that is there is provided by naming it. -/
theorem WellFormed.provides_pure (h : s.WellFormed) {tree : Tree} (ht : s.Reads tree t) :
    s.Provides (pure t) tree := ⟨h, .refl s, ht⟩

/-- Reading the store adds nothing. -/
theorem Provides.get {f : TypeStore → StateM TypeStore TypeId} {tree : Tree}
    (h : s.Provides (f s) tree) : s.Provides (MonadState.get >>= f) tree := h

/-- Instantiating provides the tree with its parameters filled in. Nothing is asked of the
links here, since none is followed. -/
theorem WellFormed.provides_instantiateWithin (h : s.WellFormed) (hargs : ∀ a ∈ args, s.Has a)
    (ht : s.Has t) {n : Nat} (hn : t.index < n) :
    s.Provides (instantiateWithin args n t) ((s.written t).fill (args.map s.written)) := by
  induction n generalizing s t with
  | zero => omega
  | succ n ih =>
      rw [instantiateWithin]
      refine .get ?_
      split
      · refine .get ?_
        split
        · next position hnode =>
            rw [written_of_atom hnode, Tree.fill_param, List.getElem?_map]
            refine h.provides_pure ?_
            cases harg : args[position]? with
            | none => exact ⟨ht, written_of_atom hnode⟩
            | some a => exact ⟨hargs a (List.mem_of_getElem? harg), rfl⟩
        · next a hparam hnode =>
            have hkept : ¬ a.IsParam := by
              rintro ⟨position, heq⟩
              exact hparam position heq
            rw [written_of_atom hnode, Tree.fill_atom hkept]
            exact h.provides_pure ⟨ht, written_of_atom hnode⟩
        · next f parts hnode =>
            rw [h.written_of_app hnode, Tree.fill_app, List.map_map]
            refine h.provides_rebuild (h.takes hnode) fun a ha x hx hadds => ?_
            have hg := hadds.grows
            have hmem : a ∈ (s.node t).args := by simpa [hnode, Node.args] using ha
            have hlt := h.args_lt hmem
            have harg := h.has_arg hmem
            have hsame : args.map x.written = args.map s.written :=
              List.map_congr_left fun b hb => h.written_grows hx hg (hargs b hb)
            rw [Function.comp_apply, ← h.written_grows hx hg harg, ← hsame]
            exact ih hx (fun b hb => hg.has (hargs b hb)) (hg.has harg) (by omega)
      · next hp =>
          refine h.provides_pure ⟨ht, (Tree.fill_of_no_param fun a ha hbad => hp ?_).symm⟩
          exact (Summary.Tracks.hasParam.summary_iff h t).mpr ⟨a, ha, hbad⟩

/-- **Instantiation** makes the type that is written as the filled tree. -/
theorem WellFormed.provides_instantiate (h : s.WellFormed) {tree : Tree} {trees : List Tree}
    (ht : s.Reads tree t) (hargs : List.Forall₂ s.Reads trees args) :
    s.Provides (instantiate t args) (tree.fill trees) := by
  obtain ⟨hhas, hwritten⟩ : (∀ a ∈ args, s.Has a) ∧ args.map s.written = trees.map fun u => u :=
    reads_all hargs
  rw [List.map_id'] at hwritten
  rw [← ht.2, ← hwritten]
  exact h.provides_instantiateWithin hhas ht.1 (Nat.lt_succ_self _)

section Later

variable {x : TypeStore} (h : s.WellFormed) (hx : x.WellFormed) (hg : Grows s x)

include h hx hg

/-- A type of the store reads the same later. -/
theorem reads_later (ht : s.Has t) : x.Reads (s.written t) t :=
  ⟨hg.has ht, h.written_grows hx hg ht⟩

/-- So do several types. -/
theorem reads_all_later (hargs : ∀ a ∈ args, s.Has a) :
    List.Forall₂ x.Reads (args.map s.written) args := by
  rw [List.forall₂_map_left_iff, List.forall₂_same]
  exact fun a ha => reads_later h hx hg (hargs a ha)

end Later

namespace WellFormed

/-- One instantiation after the other. -/
theorem instance_of_instance (h : s.WellFormed) (ht : s.Has t) (hargs : ∀ a ∈ args, s.Has a)
    (hargs' : ∀ a ∈ args', s.Has a) :
    s.Answers (instantiate t args >>= fun u => instantiate u args')
      (((s.written t).fill (args.map s.written)).fill (args'.map s.written)) := by
  intro x hx hg
  obtain ⟨hy, hadds, hu⟩ :=
    hx.provides_instantiate (reads_later h hx hg ht) (reads_all_later h hx hg hargs)
  exact hadds.provides (hy.provides_instantiate hu
    (reads_all_later h hy (hg.trans hadds.grows) hargs'))

/-- Instantiating by the composed arguments. -/
theorem instance_of_composed (h : s.WellFormed) (ht : s.Has t) (hargs : ∀ a ∈ args, s.Has a)
    (hargs' : ∀ a ∈ args', s.Has a) :
    s.Answers (args.mapM (fun a => instantiate a args') >>= fun composed =>
        instantiate t (composed ++ args'.drop args.length))
      (((s.written t).fill (args.map s.written)).fill (args'.map s.written)) := by
  intro x hx hg
  obtain ⟨hy, hadds, hcomposed⟩ := hx.mapM_provides fun a ha y hy hadds =>
    hy.provides_instantiate (reads_later h hy (hg.trans hadds.grows) (hargs a ha))
      (reads_all_later h hy (hg.trans hadds.grows) hargs')
  have hlater := hg.trans hadds.grows
  have hrest := List.forall₂_drop args.length (reads_all_later h hy hlater hargs')
  have hall := List.rel_append (List.forall₂_map_left_iff.mpr hcomposed) hrest
  rw [Tree.fill_fill, List.map_map, List.length_map]
  exact hadds.provides (hy.provides_instantiate (reads_later h hy hlater ht) hall)

/-- Instantiating by the parameters themselves. -/
theorem instance_of_params (h : s.WellFormed) (ht : s.Has t) (n : Nat) :
    s.Answers ((List.range n).mapM paramAt >>= fun params => instantiate t params)
      (s.written t) := by
  intro x hx hg
  have hone : ∀ i ∈ List.range n, ∀ y, y.WellFormed → Adds x y →
      y.Provides (paramAt i) (.atom (.param i)) :=
    fun i _ y hy _ => hy.provides_atom (a := .param i) (by simp)
  obtain ⟨hy, hadds, hparams⟩ := hx.mapM_provides hone
  have hinstance := hy.provides_instantiate (reads_later h hy (hg.trans hadds.grows) ht)
    (List.forall₂_map_left_iff.mpr hparams)
  rw [Tree.fill_params] at hinstance
  exact hadds.provides hinstance

end WellFormed

/-- What an instance means is the type with its parameters replaced by what the arguments
mean. -/
theorem Ordered.meaning_of_fill (h : s.Ordered) {tree : Tree} (hfixed : tree.Fixed) {u : TypeId}
    (hu : s.written u = tree.fill (args.map s.written)) :
    s.meaning u = tree.fill (args.map s.meaning) := by
  rw [h.meaning_eq_value, value, hu, hfixed.subst_fill, List.map_map]
  have hargs : args.map (Tree.subst (s.completed fun id => .atom (.var id)) ∘ s.written) =
      args.map s.meaning := List.map_congr_left fun a _ => (h.meaning_eq_value a).symm
  rw [hargs]

/-- Expanding an instance gives a type for the pattern filled with what the arguments
mean, where the pattern has no variables of its own. -/
theorem expand_instance (hargs : ∀ a ∈ args, s.Has a) (ht : s.Has t)
    (hfixed : (s.written t).Fixed) :
    Calm s (instantiate t args >>= expand)
      fun x u => x.Reads ((s.written t).fill (args.map s.meaning)) u := by
  intro x hx
  obtain ⟨hq, hread⟩ := hx.finish.instantiate_run (fun a ha => hx.has (hargs a ha)) (hx.has ht)
  obtain ⟨hq', hread'⟩ := hq.finish.expand_run hread.1
  refine ⟨hq.trans hq', ?_⟩
  -- of the type nothing has changed, and the arguments mean what they did
  have hwritten : args.map x.written = args.map ((instantiate t args).run x).2.written :=
    List.map_congr_left fun a ha => (hq.written_eq (hx.has (hargs a ha))).symm
  have hmeaning : args.map ((instantiate t args).run x).2.meaning = args.map s.meaning :=
    List.map_congr_left fun a ha => (hx.trans hq).meaning_eq (hargs a ha)
  have hinstance := hread.2
  rw [hx.written_eq ht, hwritten] at hinstance
  rw [hq.finish.meaning_of_fill hfixed hinstance, hmeaning] at hread'
  exact hread'

/-- Instantiating with expanded arguments gives a type for the same tree. -/
theorem instantiate_expanded (hargs : ∀ a ∈ args, s.Has a) (ht : s.Has t) :
    Calm s (args.mapM expand >>= instantiate t)
      fun x u => x.Reads ((s.written t).fill (args.map s.meaning)) u := by
  have hexpand : Calm s (args.mapM expand)
      fun x us => List.Forall₂ (fun a u => x.Reads (s.meaning a) u) args us := by
    refine Calm.mapM (fun hq hu => hq.reads hu) fun a ha x hx => ?_
    rw [← hx.meaning_eq (hargs a ha)]
    exact hx.finish.expand_run (hx.has (hargs a ha))
  refine hexpand.bind fun x us hx hus y hy => ?_
  obtain ⟨hhas, hwritten⟩ := reads_all (hus.imp fun a u hu => hy.reads hu)
  rw [← hwritten, ← (hx.trans hy).written_eq ht]
  exact hy.finish.instantiate_run hhas ((hx.trans hy).has ht)

end Instances

/-- **Instances compose.**  In every store that work of any kind leads to, instantiating a
type and then the instance gives the handle that the composed arguments give at once: a
parameter with an argument takes the instance of that argument, any other the argument at
its place in the second list, if there is one.  Parameters that are replaced by themselves,
however many, leave the type as it is.  And where links do not run in circles, expanding an
instance of a type without variables gives the handle that the expanded arguments give. -/
theorem Descent.instances_compose {s : TypeStore} (h : Descent new s) {t : TypeId} (ht : s.Has t)
    {args : List TypeId} (hargs : ∀ a ∈ args, s.Has a) :
    (∀ args', (∀ a ∈ args', s.Has a) → SameAnswer Descent s
      (do
        let u ← instantiate t args
        instantiate u args')
      (do
        let composed ← args.mapM fun a => instantiate a args'
        instantiate t (composed ++ args'.drop args.length))) ∧
    (∀ n, SameAnswer Descent s
      (do
        let params ← (List.range n).mapM paramAt
        instantiate t params)
      (pure t)) ∧
    (s.Acyclic → (s.written t).Fixed → SameAnswer Quiet s
      (do
        let u ← instantiate t args
        expand u)
      (do
        let expanded ← args.mapM expand
        instantiate t expanded)) := by
  have hs := (h.intact_grows new_intact).1
  have hwf := hs.wellFormed
  refine ⟨fun args' hargs' => ?_, fun n => ?_, fun hacyclic hfixed => ?_⟩
  · exact hs.sameAnswer (hwf.instance_of_instance ht hargs hargs')
      (hwf.instance_of_composed ht hargs hargs')
  · exact hs.sameAnswer (hwf.instance_of_params ht n) fun x hx hg =>
      hx.provides_pure (reads_later hwf hx hg ht)
  · have hordered : s.Ordered := ⟨hwf, hacyclic⟩
    exact hordered.sameAnswer (expand_instance hargs ht hfixed)
      (instantiate_expanded hargs ht)

/-- A reference to the first parameter is instantiated by a variable that stands for `i32`.
Expanding the instance gives the same handle as instantiating by the expanded variable. -/
theorem instances_compose_reference :
    let p := (paramAt 0).run new
    let t := (refTo .shared p.1).run p.2
    let v := newVar.run t.2
    let s := ((unify v.1 (.ofPrimitive .i32)).run v.2).2
    let expanded := (instantiate t.1 [v.1] >>= expand).run s
    (([v.1].mapM expand >>= instantiate t.1).run expanded.2).1 = expanded.1 := by
  intro p t v s expanded
  obtain ⟨hp, -, hpHas, hpNode⟩ := Reached.new.paramAt_run 0
  obtain ⟨htQuiet, -, htHas, htNode⟩ := hp.sound.ordered.refTo_quiet .shared hpHas
  have ht : Reached [] t.2 := hp.act (.ref .shared p.1) (by simpa [Action.types] using hpHas)
  obtain ⟨hvQuiet, hvAdds⟩ := ht.sound.ordered.newVar_run
  have hv : Reached [] v.2 := ht.act .var (by simp [Action.types])
  have hi32 : v.2.Has (.ofPrimitive .i32) :=
    (hv.descent.intact_grows new_intact).2.has (by decide)
  have hs : Reached [] s := hv.act (.unify v.1 (.ofPrimitive .i32))
    (by simpa [Action.types] using ⟨hvAdds.has, hi32⟩)
  have hbinds : Grows v.2 s := (hv.sound.unify_sound hvAdds.has hi32).2.toExtends.grows
  have hhas : s.Has t.1 := hbinds.has (hvQuiet.has htHas)
  have hargs : ∀ a ∈ [v.1], s.Has a := by simpa using hbinds.has hvAdds.has
  have hnode : s.node t.1 = .app (.ref .shared) [p.1] :=
    ((hbinds.node_eq (hvQuiet.has htHas)).trans (hvQuiet.node_eq htHas)).trans htNode
  have hparam : s.node p.1 = .atom (.param 0) :=
    ((hbinds.node_eq (hvQuiet.has (htQuiet.has hpHas))).trans
      ((htQuiet.trans hvQuiet).node_eq hpHas)).trans hpNode
  have hfixed : (s.written t.1).Fixed := by
    simp [hs.sound.wellFormed.written_of_app hnode, WellFormed.written_of_atom hparam, Tree.Fixed]
  have hsame := (hs.descent.instances_compose hhas hargs).2.2 hs.sound.ordered.acyclic hfixed
  have hquiet : Quiet s expanded.2 :=
    (expand_instance hargs hhas hfixed s (.refl hs.sound.ordered)).1
  exact hsame.then_second expanded.2 (.refl hquiet.finish)

end TypeStore

end DotCall
