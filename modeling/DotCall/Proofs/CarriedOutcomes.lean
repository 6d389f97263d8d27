import DotCall.Proofs.AgreeingOutcomes
import DotCall.Proofs.InternedTypes

/-!
# What is carried over

A type that is carried from a copy into another store is built there from its meaning.
Its variables are taken over by their numbers as far as the receiving store knows them;
for each other occurrence a new variable is made.  `Carries` says what that comes to for
a list of trees, without saying which new variable stands for which: everything that is
made is used, what the store knows is kept, and a tree in known variables comes out as it
is.  An outcome is carried over by carrying its types, one after the other.
-/

namespace DotCall

/-- The variable `id` occurs in one of the trees. -/
def Tree.Mentioned (trees : List Tree) (id : Nat) : Prop := ∃ t ∈ trees, .var id ∈ t.atoms

section Mentioned

variable {t : Tree} {ts : List Tree} {f : Former} {id : Nat}

/-- What several trees mention, the first mentions or the others. -/
theorem Tree.mentioned_cons :
    Tree.Mentioned (t :: ts) id ↔ Tree.Mentioned [t] id ∨ Tree.Mentioned ts id := by
  simp [Tree.Mentioned]

theorem Tree.mentioned_app : Tree.Mentioned [.app f ts] id ↔ Tree.Mentioned ts id := by
  simp [Tree.Mentioned, Tree.mem_atoms_app]

end Mentioned

namespace TypeStore

section Loops

variable {α β : Type} {f : α → StateM TypeStore β}

/-- A loop runs its first round and then the others on the store that this has left. -/
theorem run_mapM_cons (a : α) (as : List α) (s : TypeStore) :
    ((a :: as).mapM f).run s =
      let first := (f a).run s
      let rest := (as.mapM f).run first.2
      (first.1 :: rest.1, rest.2) := by
  rw [List.mapM_cons]
  rfl

/-- There is one answer for each element. -/
theorem length_run_mapM (as : List α) (s : TypeStore) :
    ((as.mapM f).run s).1.length = as.length := by
  induction as generalizing s with
  | nil => rfl
  | cons a as ih =>
      rw [run_mapM_cons]
      exact congrArg (· + 1) (ih _)

end Loops

/-- Types and variables were made; what was there is exactly as it was. -/
structure Gains (s s' : TypeStore) : Prop where
  start : s.Ordered
  finish : s'.Ordered
  grows : Grows s s'
  binding : ∀ id < s.variableCount, s'.binding id = s.binding id
  fresh : ∀ id, s.variableCount ≤ id → ∀ t, s'.binding id ≠ .linked t

namespace Gains

variable {s s' s'' : TypeStore} {t : TypeId}

theorem refl (h : s.Ordered) : Gains s s where
  start := h
  finish := h
  grows := .refl s
  binding _ _ := rfl
  fresh _ hge t hb := Nat.not_lt_of_le hge (lt_of_binding hb (by simp))

/-- To gain twice is to gain. -/
theorem trans (h : Gains s s') (h' : Gains s' s'') : Gains s s'' where
  start := h.start
  finish := h'.finish
  grows := h.grows.trans h'.grows
  binding id hid := by
    have hlt : id < s'.variableCount := Nat.lt_of_lt_of_le hid h.grows.count_le
    rw [h'.binding id hlt, h.binding id hid]
  fresh id hge t hb := by
    by_cases hlt : id < s'.variableCount
    · rw [h'.binding id hlt] at hb
      exact h.fresh id hge t hb
    · exact h'.fresh id (Nat.le_of_not_lt hlt) t hb

theorem keeps (h : Gains s s') : Keeps s s' :=
  ⟨h.grows, fun id hid => .inl (h.binding id hid), h.fresh⟩

/-- A store gains when types are added to it. -/
theorem of_adds (h : Adds s s') (hs : s.Ordered) (hs' : s'.WellFormed) : Gains s s' where
  start := hs
  finish := (Keeps.of_adds h).ordered hs hs'
  grows := h.grows
  binding id _ := congrFun h.binding_eq id
  fresh := (Keeps.of_adds h).fresh

theorem has (h : Gains s s') (ht : s.Has t) : s'.Has t := h.grows.has ht

theorem written_eq (h : Gains s s') (ht : s.Has t) : s'.written t = s.written t :=
  h.start.wellFormed.written_grows h.finish.wellFormed h.grows ht

theorem meaning_eq (h : Gains s s') (ht : s.Has t) : s'.meaning t = s.meaning t :=
  h.keeps.meaning_eq h.start h.finish ht

end Gains

theorem Ordered.newVar_gains {s : TypeStore} (h : s.Ordered) : Gains s (newVar.run s).2 := by
  obtain ⟨hq, -⟩ := h.newVar_run
  have hadds : Adds (s.withVariable (.free s.variableCount none)) (newVar.run s).2 :=
    adds_intern _ (.atom (.var s.variableCount))
  refine ⟨h, hq.finish, hq.grows, fun id hid => ?_, hq.keeps.fresh⟩
  rw [hadds.binding_eq, withVariable_binding, if_neg (Nat.ne_of_lt hid)]

/-- From `s` to `s'` the trees were carried over and came out as `trees'`. -/
structure Carries (s s' : TypeStore) (trees trees' : List Tree) : Prop where
  gains : Gains s s'
  same : List.Forall₂ (fun t t' => (∀ id, .var id ∈ t.atoms → id < s.variableCount) → t' = t)
    trees trees'
  origin : ∀ {id}, Tree.Mentioned trees' id → s.variableCount ≤ id ∨ Tree.Mentioned trees id
  kept : ∀ {id}, id < s.variableCount → Tree.Mentioned trees id → Tree.Mentioned trees' id
  made : ∀ {id}, s.variableCount ≤ id → id < s'.variableCount → Tree.Mentioned trees' id

namespace Carries

variable {s s₁ s₂ : TypeStore} {t t' : Tree} {ts ts' : List Tree}

theorem nil (h : s.Ordered) : Carries s s [] [] where
  gains := .refl h
  same := .nil
  origin hid := .inr hid
  kept _ hid := hid
  made hge hlt := absurd hlt (Nat.not_lt_of_le hge)

/-- Trees are carried one after the other; what is made for the first is there for the
others. -/
theorem cons (h : Carries s s₁ [t] [t']) (h' : Carries s₁ s₂ ts ts') :
    Carries s s₂ (t :: ts) (t' :: ts') := by
  have hle := h.gains.grows.count_le
  have hle' := h'.gains.grows.count_le
  constructor
  · exact h.gains.trans h'.gains
  · cases h.same with
    | cons hfirst _ =>
        refine .cons hfirst (h'.same.imp fun u u' hu hold => hu fun id hid => ?_)
        have := hold id hid
        omega
  · intro id hid
    rw [Tree.mentioned_cons] at hid ⊢
    rcases hid with hid | hid
    · exact (h.origin hid).imp_right .inl
    · rcases h'.origin hid with hge | hid
      · exact .inl (by omega)
      · exact .inr (.inr hid)
  · intro id hlt hid
    rw [Tree.mentioned_cons] at hid ⊢
    exact hid.imp (h.kept hlt) (h'.kept (by omega))
  · intro id hge hlt
    rw [Tree.mentioned_cons]
    by_cases hid : id < s₁.variableCount
    · exact .inl (h.made hge hid)
    · exact .inr (h'.made (by omega) hlt)

/-- Carrying the arguments and then adding the compound type. -/
theorem app {f : Former} (h : Carries s s₁ ts ts') (hg : Gains s₁ s₂)
    (hcount : s₂.variableCount = s₁.variableCount) : Carries s s₂ [.app f ts] [.app f ts'] where
  gains := h.gains.trans hg
  same := by
    refine .cons (fun hold => ?_) .nil
    have hknown : ∀ t ∈ ts, ∀ id, .var id ∈ t.atoms → id < s.variableCount :=
      fun t ht id hid => hold id (Tree.mem_atoms_app.mpr ⟨t, ht, hid⟩)
    have hsame : List.Forall₂ (fun t t' => t = t') ts ts' :=
      ((List.forall₂_and_left ts ts').mpr ⟨hknown, h.same⟩).imp fun t t' ht => (ht.2 ht.1).symm
    rw [List.forall₂_eq_eq_eq] at hsame
    rw [hsame]
  origin hid := by
    rw [Tree.mentioned_app] at hid ⊢
    exact h.origin hid
  kept hlt hid := by
    rw [Tree.mentioned_app] at hid ⊢
    exact h.kept hlt hid
  made hge hlt := by
    rw [Tree.mentioned_app]
    exact h.made hge (hcount ▸ hlt)

/-- An atom that is taken over as it is. -/
theorem atom {a : Atom} (hg : Gains s s₁) (hcount : s₁.variableCount = s.variableCount) :
    Carries s s₁ [.atom a] [.atom a] where
  gains := hg
  same := .cons (fun _ => rfl) .nil
  origin hid := .inr hid
  kept _ hid := hid
  made hge hlt := by omega

/-- A variable for which a new one is made. -/
theorem newVar {i : Nat} (h : s.Ordered) (hi : s.variableCount ≤ i) :
    Carries s (newVar.run s).2 [.atom (.var i)] [.atom (.var s.variableCount)] := by
  obtain ⟨-, hadd⟩ := h.newVar_run
  have hone : ∀ {i id : Nat}, Tree.Mentioned [.atom (.var i)] id ↔ id = i := by
    simp [Tree.Mentioned]
  have hcount := hadd.count
  constructor
  · exact h.newVar_gains
  · refine .cons (fun hold => absurd (hold i (by simp)) ?_) .nil
    omega
  · intro id hid
    rw [hone] at hid
    exact .inl (by omega)
  · intro id hlt hid
    rw [hone] at hid
    omega
  · intro id hge hlt
    rw [hone]
    omega

end Carries

/-- Interning an admitted node gains at most that type. -/
theorem Ordered.intern_gains {s : TypeStore} (h : s.Ordered) {n : Node} (hn : s.Admits n) :
    let r := (intern n).run s
    Gains s r.2 ∧ r.2.variableCount = s.variableCount ∧ r.2.Has r.1 ∧ r.2.node r.1 = n := by
  obtain ⟨hwf, hadds, hhas, hnode⟩ := h.wellFormed.intern_run hn
  exact ⟨.of_adds hadds h hwf, by simp [variableCount, hadds.bindings], hhas, hnode⟩

/-- Run at `s`, the action answers with a type that is the tree carried over. -/
def Builds (s : TypeStore) (m : StateM TypeStore TypeId) (tree : Tree) : Prop :=
  let r := m.run s
  r.2.Has r.1 ∧ Carries s r.2 [tree] [r.2.written r.1]

/-- What is built depends on the run only. -/
theorem Builds.congr {s : TypeStore} {m m' : StateM TypeStore TypeId} {tree : Tree}
    (h : s.Builds m tree) (hrun : m'.run s = m.run s) : s.Builds m' tree := by
  unfold Builds
  rwa [hrun]

/-- Building an atom that the store may have. -/
theorem Ordered.builds_intern_atom {s : TypeStore} (h : s.Ordered) {a : Atom}
    (hvar : ∀ id, a = .var id → id < s.variableCount)
    (hgeneric : ∀ id, a = .generic id → id < s.variableCount) :
    s.Builds (intern (.atom a)) (.atom a) := by
  obtain ⟨hg, hcount, hhas, hnode⟩ := h.intern_gains (.atom hvar hgeneric)
  refine ⟨hhas, ?_⟩
  rw [WellFormed.written_of_atom hnode]
  exact .atom hg hcount

/-- Building a variable that the store does not know. -/
theorem Ordered.builds_newVar {s : TypeStore} (h : s.Ordered) {id : Nat}
    (hid : s.variableCount ≤ id) : s.Builds newVar (.atom (.var id)) := by
  obtain ⟨-, hadd⟩ := h.newVar_run
  refine ⟨hadd.has, ?_⟩
  rw [WellFormed.written_of_atom hadd.node]
  exact .newVar h hid

/-- Trees that are built in a row are carried over in order. -/
theorem Ordered.mapM_carries {s : TypeStore} (h : s.Ordered) {trees : List Tree}
    (hone : ∀ t ∈ trees, ∀ x, Gains s x → x.Builds (build t) t) :
    let r := (trees.mapM build).run s
    (∀ u ∈ r.1, r.2.Has u) ∧ Carries s r.2 trees (r.1.map r.2.written) := by
  induction trees generalizing s with
  | nil => exact ⟨fun u hu => absurd hu List.not_mem_nil, .nil h⟩
  | cons t ts ih =>
      obtain ⟨hhas, hfirst⟩ := hone t List.mem_cons_self s (.refl h)
      obtain ⟨hall, hrest⟩ := ih hfirst.gains.finish fun t' ht' x hx =>
        hone t' (List.mem_cons_of_mem _ ht') x (hfirst.gains.trans hx)
      rw [run_mapM_cons]
      refine ⟨List.forall_mem_cons.mpr ⟨hrest.gains.has hhas, hall⟩, ?_⟩
      rw [List.map_cons, hrest.gains.written_eq hhas]
      exact hfirst.cons hrest

/-- Building a compound type, its arguments first. -/
theorem Ordered.builds_app {s : TypeStore} (h : s.Ordered) {f : Former} {ts : List Tree}
    (htakes : f.Takes ts.length) (hone : ∀ t ∈ ts, ∀ x, Gains s x → x.Builds (build t) t) :
    s.Builds (build (.app f ts)) (.app f ts) := by
  obtain ⟨hhas, hcarries⟩ := h.mapM_carries hone
  have hlength := length_run_mapM (f := build) ts s
  unfold Builds
  rw [build_app, run_bind]
  generalize (ts.mapM build).run s = made at hhas hcarries hlength
  obtain ⟨hg, hcount, hnew, hnode⟩ :=
    hcarries.gains.finish.intern_gains (.app hhas (by rwa [hlength]))
  refine ⟨hnew, ?_⟩
  rw [hg.finish.wellFormed.written_of_app hnode,
    List.map_congr_left fun u hu => hg.written_eq (hhas u hu)]
  exact hcarries.app hg hcount

/-- **Building a tree.** -/
theorem Ordered.builds_build {s : TypeStore} (h : s.Ordered) {tree : Tree} (ht : tree.Formed)
    (hgeneric : ∀ id, .generic id ∈ tree.atoms → id < s.variableCount) :
    s.Builds (build tree) tree := by
  induction ht generalizing s with
  | atom a =>
      cases a with
      | var id =>
          by_cases hid : id < s.variableCount
          · exact (h.builds_intern_atom (by simp [hid]) (by simp)).congr
              (by simp [build, adoptVariable, hid])
          · exact (h.builds_newVar (Nat.le_of_not_lt hid)).congr
              (by simp [build, adoptVariable, hid])
      | generic id =>
          have hid : id < s.variableCount := hgeneric id (by simp)
          exact (h.builds_intern_atom (by simp) (by simp [hid])).congr
            (by simp [build, adoptVariable, hid])
      | _ => exact h.builds_intern_atom (by simp) (by simp)
  | @app f ts htakes _ ih =>
      apply h.builds_app htakes
      intro t ht x hx
      apply ih t ht hx.finish
      intro id hid
      have hlt := hgeneric id (Tree.mem_atoms_app.mpr ⟨t, ht, hid⟩)
      exact Nat.lt_of_lt_of_le hlt hx.grows.count_le

end TypeStore

/-- The types of a candidate. -/
def Candidate.types (c : Candidate) : List TypeId := [c.self, c.expected]

/-- The types of a failure. -/
def Failure.types : Failure → List TypeId
  | .noMethod _ receiver tried _ _ => receiver :: tried
  | .ambiguous _ receiver candidates => receiver :: candidates.flatMap Candidate.types
  | .endlessDeref receiver ty _ => [receiver, ty]

/-- The types of an outcome, in the order in which they are carried over. -/
def Outcome.types : Outcome → List TypeId
  | .ok choice => choice.candidate.types
  | .error failure => failure.types

/-- The variable `id` occurs in a type of the outcome. -/
def Outcome.Mentions (s : TypeStore) (o : Outcome) (id : Nat) : Prop :=
  Tree.Mentioned ((Outcome.types o).map s.meaning) id

section Agreement

variable {R S : TypeId → TypeId → Prop}

/-- Candidates agree on any relation that holds between their types one by one. -/
theorem Candidate.Agree.of_types {c c' : Candidate} (h : c.Agree S c')
    (htypes : List.Forall₂ R c.types c'.types) : c.Agree R c' := by
  cases htypes with
  | cons hself hrest =>
      cases hrest with
      | cons hexpected _ => exact { h with self := hself, expected := hexpected }

/-- The same for rows of candidates, whose types come in one list. -/
theorem Candidate.forall₂_of_types {cs cs' : List Candidate}
    (h : List.Forall₂ (Candidate.Agree S) cs cs')
    (htypes : List.Forall₂ R (cs.flatMap Candidate.types) (cs'.flatMap Candidate.types)) :
    List.Forall₂ (Candidate.Agree R) cs cs' := by
  induction h with
  | nil => exact .nil
  | cons hc _ ih =>
      cases htypes with
      | cons hself hrest =>
          cases hrest with
          | cons hexpected hrest =>
              exact .cons (hc.of_types (.cons hself (.cons hexpected .nil))) (ih hrest)

/-- Outcomes agree by whatever relates their types one by one. -/
theorem Outcome.Agree.of_types {o o' : Outcome} (h : Outcome.Agree S o o')
    (htypes : List.Forall₂ R (Outcome.types o) (Outcome.types o')) : Outcome.Agree R o o' := by
  cases h with
  | ok h => exact .ok { h with candidate := h.candidate.of_types htypes }
  | error h =>
      cases h with
      | noMethod h => exact .error (.noMethod h)
      | endlessDeref => exact .error .endlessDeref
      | ambiguous h =>
          cases htypes with
          | cons _ hrest => exact .error (.ambiguous (Candidate.forall₂_of_types h hrest))

end Agreement

section Carrying

open TypeStore

variable (own s : TypeStore)

/-- Carrying a candidate over carries its types in order. -/
theorem Candidate.carryFrom_run (c : Candidate) :
    let l := (c.types.mapM (TypeStore.carryFrom own)).run s
    let r := (c.carryFrom own).run s
    r.2 = l.2 ∧ r.1.types = l.1 ∧ c.Agree (fun _ _ => True) r.1 :=
  ⟨rfl, rfl, rfl, rfl, rfl, rfl, rfl, trivial, trivial⟩

/-- Carrying several over carries the types of all of them in order. -/
theorem Candidate.carryAll_run (cs : List Candidate) :
    let l := ((cs.flatMap Candidate.types).mapM (TypeStore.carryFrom own)).run s
    let r := (cs.mapM (Candidate.carryFrom own)).run s
    r.2 = l.2 ∧ r.1.flatMap Candidate.types = l.1 ∧
      List.Forall₂ (Candidate.Agree fun _ _ => True) cs r.1 := by
  induction cs generalizing s with
  | nil => exact ⟨rfl, rfl, .nil⟩
  | cons c cs ih =>
      obtain ⟨hstate, htypes, hagree⟩ := Candidate.carryFrom_run own s c
      obtain ⟨hstate', htypes', hagree'⟩ := ih ((c.carryFrom own).run s).2
      rw [run_mapM_cons, List.flatMap_cons, List.mapM_append]
      refine ⟨hstate', ?_, .cons hagree hagree'⟩
      rw [List.flatMap_cons, htypes, htypes']
      rfl

/-- **Carrying an outcome over** is carrying its types over, one after the other. -/
theorem Outcome.carryFrom_run (o : Outcome) :
    let l := ((Outcome.types o).mapM (TypeStore.carryFrom own)).run s
    let r := (Outcome.carryFrom own o).run s
    r.2 = l.2 ∧ Outcome.types r.1 = l.1 ∧ Outcome.Agree (fun _ _ => True) o r.1 := by
  cases o with
  | ok choice =>
      obtain ⟨hstate, htypes, hagree⟩ := choice.candidate.carryFrom_run own s
      exact ⟨hstate, htypes, .ok ⟨hagree, rfl, rfl, rfl, rfl⟩⟩
  | error failure =>
      cases failure with
      | noMethod method receiver tried functions outOfScope =>
          have htried := length_run_mapM (f := TypeStore.carryFrom own) tried
            ((TypeStore.carryFrom own receiver).run s).2
          unfold Outcome.types Failure.types
          rw [List.mapM_cons]
          exact ⟨rfl, rfl, .error (.noMethod htried.symm)⟩
      | ambiguous method receiver candidates =>
          obtain ⟨hstate, htypes, hagree⟩ := Candidate.carryAll_run own
            ((TypeStore.carryFrom own receiver).run s).2 candidates
          unfold Outcome.types Failure.types
          rw [List.mapM_cons]
          refine ⟨hstate, ?_, .error (.ambiguous hagree)⟩
          exact congrArg (_ :: ·) htypes
      | endlessDeref receiver ty cycle => exact ⟨rfl, rfl, .error .endlessDeref⟩

end Carrying

namespace TypeStore

/-- Every atom of what a type means is a type of the store. -/
theorem Ordered.node_of_mem_meaning {s : TypeStore} (h : s.Ordered) {t : TypeId} {a : Atom}
    (ha : a ∈ (s.meaning t).atoms) : ∃ u, s.node u = .atom a := by
  induction t using h.root_induction with
  | step t ih =>
      cases hn : s.node (s.root t) with
      | atom b =>
          rw [meaning_of_atom hn] at ha
          obtain rfl : a = b := by simpa using ha
          exact ⟨_, hn⟩
      | app f args =>
          rw [h.meaning_of_app hn] at ha
          obtain ⟨tree, htree, ha⟩ := Tree.mem_atoms_app.mp ha
          obtain ⟨arg, harg, rfl⟩ := List.mem_map.mp htree
          exact ih arg (by simpa [hn, Node.args] using harg) ha

/-- From `s` to `s'` the outcome `o`, found in the copy `own`, was carried over and came
out as `o'`. -/
structure Brings (own : TypeStore) (o : Outcome) (s s' : TypeStore) (o' : Outcome) : Prop where
  gains : Gains s s'
  has : ∀ u ∈ Outcome.types o', s'.Has u
  agree : Outcome.Agree (fun t u => s'.Has u ∧
    ((∀ id, .var id ∈ (own.meaning t).atoms → id < s.variableCount) →
      s'.meaning u = own.meaning t)) o o'
  origin : ∀ {id}, Outcome.Mentions s' o' id → s.variableCount ≤ id ∨ Outcome.Mentions own o id
  kept : ∀ {id}, id < s.variableCount → Outcome.Mentions own o id → Outcome.Mentions s' o' id
  made : ∀ {id}, s.variableCount ≤ id → id < s'.variableCount → Outcome.Mentions s' o' id

/-- A variable that is not linked in a copy is not linked in what was made of the store
itself. -/
theorem Gains.not_linked_of_copy {base own s : TypeStore} (hs : Gains base s)
    (hown : Quiet base own) {id : Nat} (hid : ∀ t, own.binding id ≠ .linked t) (t : TypeId) :
    s.binding id ≠ .linked t := by
  intro hb
  obtain ⟨u, hu, -⟩ := hs.keeps.linked_cases hb
  obtain ⟨v, hv, -⟩ := hown.keeps.linked_root hown.start hown.finish hu
  exact hid v hv

/-- **Carrying over** types of a copy. -/
theorem Gains.carries {base own s : TypeStore} (hs : Gains base s) (hown : Quiet base own)
    (ts : List TypeId) :
    let r := (ts.mapM (carryFrom own)).run s
    (∀ u ∈ r.1, r.2.Has u ∧ r.2.meaning u = r.2.written u) ∧
      Carries s r.2 (ts.map own.meaning) (r.1.map r.2.written) := by
  have hgeneric : ∀ t id, .generic id ∈ (own.meaning t).atoms → id < base.variableCount := by
    intro t id hid
    obtain ⟨u, hn⟩ := hown.finish.node_of_mem_meaning hid
    have hu : own.Has u := has_of_node_ne (by simp [hn])
    have hold : base.Has u := hown.has_of_atom hu hn (by simp)
    exact hown.start.wellFormed.generic_lt ((hown.node_eq hold).symm.trans hn)
  have hbuild : ∀ tree ∈ ts.map own.meaning, ∀ x, Gains s x → x.Builds (build tree) tree := by
    intro tree htree x hx
    obtain ⟨t, -, rfl⟩ := List.mem_map.mp htree
    apply hx.finish.builds_build (hown.finish.wellFormed.treeWithin_formed _ _ _)
    intro id hid
    exact Nat.lt_of_lt_of_le (hgeneric t id hid) (hs.trans hx).grows.count_le
  obtain ⟨hhas, hcarries⟩ := hs.finish.mapM_carries hbuild
  rw [List.mapM_map] at hhas hcarries
  refine ⟨fun u hu => ⟨hhas u hu, ?_⟩, hcarries⟩
  -- nothing that was carried over is written with a linked variable
  apply hcarries.gains.finish.meaning_eq_written
  intro id hid
  rcases hcarries.origin ⟨_, List.mem_map_of_mem hu, hid⟩ with hge | ⟨_, htree, hid⟩
  · exact hcarries.gains.fresh id hge
  · obtain ⟨t, -, rfl⟩ := List.mem_map.mp htree
    exact (hs.trans hcarries.gains).not_linked_of_copy hown
      (hown.finish.not_linked_of_mem_meaning hid)

/-- **Carrying over** an outcome that was found in a copy. -/
theorem Gains.brings {base own s : TypeStore} (hs : Gains base s) (hown : Quiet base own)
    (o : Outcome) :
    let r := (Outcome.carryFrom own o).run s
    Brings own o s r.2 r.1 := by
  obtain ⟨htypes, hcarries⟩ := hs.carries hown (Outcome.types o)
  obtain ⟨hstate, hanswer, hagree⟩ := Outcome.carryFrom_run own s o
  rw [← hstate, ← hanswer] at htypes hcarries
  intro r
  have hmentions : ∀ {id}, Outcome.Mentions r.2 r.1 id ↔
      Tree.Mentioned ((Outcome.types r.1).map r.2.written) id := by
    intro id
    rw [Outcome.Mentions, List.map_congr_left fun u hu => (htypes u hu).2]
  have hsame := List.forall₂_map_left_iff.mp (List.forall₂_map_right_iff.mp hcarries.same)
  have hboth := (List.forall₂_and_left _ _).mpr ⟨htypes, hsame.flip⟩
  constructor
  · exact hcarries.gains
  · exact fun u hu => (htypes u hu).1
  · apply hagree.of_types
    exact (hboth.imp fun u t h => ⟨h.1.1, fun hold => h.1.2.trans (h.2 hold)⟩).flip
  · exact fun hid => hcarries.origin (hmentions.mp hid)
  · exact fun hlt hid => hmentions.mpr (hcarries.kept hlt hid)
  · exact fun hge hlt => hmentions.mpr (hcarries.made hge hlt)

end TypeStore

end DotCall
