import DotCall.Proofs.AdoptedTrees
import DotCall.Proofs.CarriedOutcomes

/-!
# Variables that are carried over

A variable that the receiving store does not have becomes a new one, and whether the
store has it is told by comparing its number with the number of variables that there
are by then.  What is built from a tree is therefore written as `Tree.adopt` says
(`Ordered.adopts_build`), and it is the tree itself, up to an injective renumbering of
the variables that the store does not have, only where these come in order.
-/

namespace DotCall

namespace TypeStore

/-- Run at `s`, the action answers with what becomes of the tree there, makes the
variables for it, and leaves what was there exactly as it was. -/
def Adopts (s : TypeStore) (m : StateM TypeStore TypeId) (tree : Tree) : Prop :=
  let r := m.run s
  Gains s r.2 ∧ r.2.Has r.1 ∧ r.2.written r.1 = (tree.adopt s.variableCount).1 ∧
    r.2.variableCount = (tree.adopt s.variableCount).2

namespace Ordered

variable {s : TypeStore}

/-- An atom whose variable the store knows, or which has none, is adopted as it is. -/
theorem adopts_known (h : s.Ordered) {a : Atom}
    (hknown : ∀ id, a.number? = some id → id < s.variableCount) :
    s.Adopts (intern (.atom a)) (.atom a) := by
  have hn : s.Admits (.atom a) :=
    .atom (fun id heq => hknown id (by simp [heq, Atom.number?]))
      (fun id heq => hknown id (by simp [heq, Atom.number?]))
  obtain ⟨hg, hcount, hhas, hnode⟩ := h.intern_gains hn
  have hadopt : a.adopt s.variableCount = (a, s.variableCount) := by
    cases ha : a.number? with
    | none => simp [Atom.adopt, ha]
    | some id => simp [Atom.adopt, ha, hknown id ha]
  refine ⟨hg, hhas, ?_, ?_⟩
  · rw [WellFormed.written_of_atom hnode, Tree.adopt, hadopt]
  · rw [hcount, Tree.adopt, hadopt]

/-- A variable that the store does not know is adopted as a new one. -/
theorem adopts_strange (h : s.Ordered) {a : Atom} {id : Nat} (ha : a.number? = some id)
    (hid : s.variableCount ≤ id) : s.Adopts newVar (.atom a) := by
  obtain ⟨-, hadd⟩ := h.newVar_run
  have hadopt : a.adopt s.variableCount = (.var s.variableCount, s.variableCount + 1) := by
    simp [Atom.adopt, ha, Nat.not_lt_of_le hid]
  refine ⟨h.newVar_gains, hadd.has, ?_, ?_⟩
  · rw [WellFormed.written_of_atom hadd.node, Tree.adopt, hadopt]
  · rw [hadd.count, Tree.adopt, hadopt]

/-- Trees in a row are adopted in order, each in the store that those before it have left.
-/
theorem mapM_adopts (h : s.Ordered) {trees : List Tree}
    (hone : ∀ t ∈ trees, ∀ x : TypeStore, x.Ordered → x.Adopts (build t) t) :
    let r := (trees.mapM build).run s
    Gains s r.2 ∧ (∀ u ∈ r.1, r.2.Has u) ∧
      r.1.map r.2.written = (Tree.adoptAll trees s.variableCount).1 ∧
      r.2.variableCount = (Tree.adoptAll trees s.variableCount).2 := by
  induction trees generalizing s with
  | nil => exact ⟨.refl h, fun u hu => absurd hu List.not_mem_nil, rfl, rfl⟩
  | cons t ts ih =>
      obtain ⟨hg, hhas, hwritten, hcount⟩ := hone t List.mem_cons_self s h
      obtain ⟨hg', hall, hwritten', hcount'⟩ := ih hg.finish fun u hu =>
        hone u (List.mem_cons_of_mem _ hu)
      rw [hcount] at hwritten' hcount'
      rw [run_mapM_cons]
      refine ⟨hg.trans hg', List.forall_mem_cons.mpr ⟨hg'.has hhas, hall⟩, ?_, hcount'⟩
      rw [List.map_cons, hg'.written_eq hhas, hwritten, hwritten']
      rfl

/-- **Building a tree** gives what becomes of it. -/
theorem adopts_build (h : s.Ordered) {tree : Tree} (ht : tree.Formed) :
    s.Adopts (build tree) tree := by
  induction ht generalizing s with
  | atom a =>
      cases a with
      | var id | generic id =>
          by_cases hid : id < s.variableCount
          · simpa [Adopts, build, adoptVariable, run_bind, run_get, hid] using
              h.adopts_known (a := _) (by simpa [Atom.number?] using hid)
          · simpa [Adopts, build, adoptVariable, run_bind, run_get, hid] using
              h.adopts_strange (a := _) rfl (Nat.le_of_not_lt hid)
      | _ => exact h.adopts_known (by simp [Atom.number?])
  | @app f ts htakes _ ih =>
      obtain ⟨hg, hhas, hwritten, hcount⟩ := h.mapM_adopts fun t ht x hx => ih t ht hx
      have hlength := length_run_mapM (f := build) ts s
      unfold Adopts
      rw [build_app, run_bind]
      generalize (ts.mapM build).run s = made at hg hhas hwritten hcount hlength
      obtain ⟨hg', hcount', hnew, hnode⟩ :=
        hg.finish.intern_gains (.app hhas (by rwa [hlength]))
      refine ⟨hg.trans hg', hnew, ?_, hcount'.trans hcount⟩
      rw [hg'.finish.wellFormed.written_of_app hnode,
        List.map_congr_left fun u hu => hg'.written_eq (hhas u hu), hwritten, Tree.adopt]

end Ordered

/-- In a sound store no number is that of variables of both sorts. -/
theorem Sound.sort_of_mem_meaning {s : TypeStore} (h : s.Sound) {t : TypeId} (id : Nat)
    (hvar : .var id ∈ (s.meaning t).atoms) : .generic id ∉ (s.meaning t).atoms := by
  intro hgeneric
  obtain ⟨u, hu⟩ := h.ordered.node_of_mem_meaning hvar
  obtain ⟨v, hv⟩ := h.ordered.node_of_mem_meaning hgeneric
  obtain ⟨name, hb⟩ := h.generic_sort hv
  exact h.var_sort hu name hb

/-- **When carrying over renames.**  What a type means is carried over up to an injective
renumbering of the variables that the receiving store does not have, exactly when no
generic parameter is among them and they come in order. -/
theorem carryFrom_renamed_iff {s other : TypeStore} (hs : s.Ordered) (hother : other.Sound)
    (t : TypeId) :
    let r := (carryFrom other t).run s
    let tree := other.meaning t
    tree.Renamed s.variableCount (r.2.written r.1) ↔
      (∀ id, .generic id ∈ tree.atoms → id < s.variableCount) ∧
        InOrder s.variableCount (strangers s.variableCount tree.atoms) := by
  intro r tree
  have hwritten : r.2.written r.1 = (tree.adopt s.variableCount).1 :=
    (hs.adopts_build (hother.wellFormed.treeWithin_formed other.root (other.size + 1) t)).2.2.1
  rw [hwritten]
  exact Tree.renamed_adopt_iff (hother.sort_of_mem_meaning (t := t))

/-- Two new variables in a copy of the first store, which have the handles 64 and 65
there, and a pair of types. -/
def pairOf (first second : TypeId) : TypeId × TypeStore :=
  (nominalType .blank [first, second]).run ((newVars 2).run new).2

/-- The copy with the pair in it is sound. -/
theorem pairOf_sound {first second : TypeId} (hfirst : first = ⟨64⟩ ∨ first = ⟨65⟩)
    (hsecond : second = ⟨64⟩ ∨ second = ⟨65⟩) : (pairOf first second).2.Sound := by
  obtain ⟨hq, -, -⟩ := new_sound.ordered.newVars_run 2
  have hhas : ((newVars 2).run new).2.Has ⟨64⟩ ∧ ((newVars 2).run new).2.Has ⟨65⟩ := by cbv
  have hsound := (new_sound.quiet hq)
  refine hsound.quiet (hq.finish.intern_quiet (f := .nominal .blank) ?_ trivial).1
  grind

/-- The first variable and the second, in this order, are carried back as two variables. -/
theorem carryFrom_renamed_pair :
    let p := pairOf ⟨64⟩ ⟨65⟩
    let r := (carryFrom p.2 p.1).run new
    (p.2.meaning p.1).Renamed 0 (r.2.written r.1) := by
  have hmeaning : (pairOf ⟨64⟩ ⟨65⟩).2.meaning (pairOf ⟨64⟩ ⟨65⟩).1 =
      .app (.nominal .blank) [.atom (.var 0), .atom (.var 1)] := by cbv
  refine (carryFrom_renamed_iff new_sound.ordered (pairOf_sound (by simp) (by simp)) _).mpr ?_
  rw [hmeaning]
  refine ⟨by simp, ?_⟩
  decide

/-- What a type is carried back to the first store as. -/
def carriedBack (p : TypeId × TypeStore) : Tree :=
  let r := (carryFrom p.2 p.1).run new
  r.2.written r.1

/-- What is carried back to the first store is not always renamed.  Of the second
variable twice comes a pair of two variables, and of the second and the first a pair of
one; a generic parameter becomes an inference variable. -/
theorem carryFrom_not_renamed :
    ¬ ((pairOf ⟨65⟩ ⟨65⟩).2.meaning (pairOf ⟨65⟩ ⟨65⟩).1).Renamed 0
        (carriedBack (pairOf ⟨65⟩ ⟨65⟩)) ∧
      ¬ ((pairOf ⟨65⟩ ⟨64⟩).2.meaning (pairOf ⟨65⟩ ⟨64⟩).1).Renamed 0
        (carriedBack (pairOf ⟨65⟩ ⟨64⟩)) ∧
      ¬ (((newGeneric .blank).run new).2.meaning ((newGeneric .blank).run new).1).Renamed 0
        (carriedBack ((newGeneric .blank).run new)) := by
  refine ⟨?_, ?_, ?_⟩
  · have hvalues :
        ((pairOf ⟨65⟩ ⟨65⟩).2.meaning (pairOf ⟨65⟩ ⟨65⟩).1, carriedBack (pairOf ⟨65⟩ ⟨65⟩)) =
          (.app (.nominal .blank) [.atom (.var 1), .atom (.var 1)],
            .app (.nominal .blank) [.atom (.var 0), .atom (.var 1)]) := by cbv
    obtain ⟨hmeaning, hcarried⟩ := Prod.mk.inj hvalues
    rw [hmeaning, hcarried]
    rintro ⟨ρ, -, heq⟩
    simp [Tree.renumber, Tree.renumberAll, Atom.renumber] at heq
    omega
  · have hvalues :
        ((pairOf ⟨65⟩ ⟨64⟩).2.meaning (pairOf ⟨65⟩ ⟨64⟩).1, carriedBack (pairOf ⟨65⟩ ⟨64⟩)) =
          (.app (.nominal .blank) [.atom (.var 1), .atom (.var 0)],
            .app (.nominal .blank) [.atom (.var 0), .atom (.var 0)]) := by cbv
    obtain ⟨hmeaning, hcarried⟩ := Prod.mk.inj hvalues
    rw [hmeaning, hcarried]
    rintro ⟨ρ, hρ, heq⟩
    simp only [Tree.renumber, Tree.renumberAll, Atom.renumber, Tree.app.injEq, true_and,
      List.cons.injEq, Tree.atom.injEq, Atom.var.injEq, and_true] at heq
    have hbad := hρ.injective 1 (by decide) 0 (by decide) (heq.1.symm.trans heq.2)
    omega
  · have hmeaning : ((newGeneric .blank).run new).2.meaning ((newGeneric .blank).run new).1 =
        .atom (.generic 0) := by cbv
    have hcarried : carriedBack ((newGeneric .blank).run new) = .atom (.var 0) := by cbv
    rw [hmeaning, hcarried]
    rintro ⟨ρ, -, heq⟩
    simp [Tree.renumber, Atom.renumber] at heq

end TypeStore

end DotCall
