import DotCall.Call.Resolver
import Mathlib.Data.List.Perm.Subperm
import Mathlib.Logic.Relation
import Mathlib.Order.Lattice.Nat

/-!
# The ancestors of a trait

The ancestors are collected in the manner of a sweep over the declared graph: what
leaves the queue is done, and its parents enter the queue unless they have been seen.
`Sweep` says what holds between two rounds.  Its key local fact is `Sweep.distance_found`:
what enters the queue is exactly one edge farther away than what has just left it.  The
sweep never leaves a circle unnoticed, so cycles, repeated parents and parents that were
never declared need no care of their own.

The sweep ends by itself, since nothing but ends of declared edges enters the queue and
nothing enters it twice.
-/

namespace DotCall

/-- There are `n` edges from `x` to `y`, one after the other. -/
inductive Walk {α : Type} (next : α → List α) (x : α) : Nat → α → Prop where
  | here : Walk next x 0 x
  | edge {n : Nat} {y z : α} (walk : Walk next x n y) (hz : z ∈ next y) : Walk next x (n + 1) z

/-- The least number of edges from `x` to what is reached from it. -/
noncomputable def distance {α : Type} (next : α → List α) (x y : α) : Nat :=
  sInf {n | Walk next x n y}

section Walks

variable {α : Type} {next : α → List α} {x y z : α} {n : Nat}

/-- The distance is at most the length of any walk. -/
theorem Walk.distance_le (h : Walk next x n y) : distance next x y ≤ n := Nat.sInf_le h

/-- What is reached is reached by as many edges as its distance. -/
theorem Walk.shortest (h : Walk next x n y) : Walk next x (distance next x y) y :=
  Nat.sInf_mem (s := {n | Walk next x n y}) ⟨n, h⟩

/-- What can be walked to is what is reached by any number of steps. -/
theorem exists_walk_iff :
    (∃ n, Walk next x n y) ↔ Relation.ReflTransGen (fun u v => v ∈ next u) x y := by
  constructor
  · intro hex
    obtain ⟨n, h⟩ := hex
    induction h with
    | here => exact .refl
    | edge _ hz ih => exact ih.tail hz
  · intro h
    induction h with
    | refl => exact ⟨0, .here⟩
    | tail _ hz ih =>
        obtain ⟨n, walk⟩ := ih
        exact ⟨n + 1, walk.edge hz⟩

/-- What is reached is the start or the end of an edge. -/
theorem Walk.eq_or_mem (h : Walk next x n y) : y = x ∨ ∃ u, y ∈ next u := by
  cases h with
  | here => exact .inl rfl
  | edge _ hz => exact .inr ⟨_, hz⟩

end Walks

section Unseen

variable {α : Type} [DecidableEq α] {seen xs : List α} {x : α}

/-- Left over are the elements that have not been seen. -/
theorem mem_unseen : x ∈ unseen seen xs ↔ x ∈ xs ∧ x ∉ seen := by
  induction xs generalizing seen with
  | nil => simp [unseen]
  | cons y ys ih =>
      by_cases hy : y ∈ seen
      · simp only [unseen, hy, if_true, ih, List.mem_cons]
        grind
      · simp only [unseen, hy, if_false, List.mem_cons, ih]
        grind

/-- Nothing is left over twice, even where a trait names a parent twice. -/
theorem nodup_unseen : (unseen seen xs).Nodup := by
  induction xs generalizing seen with
  | nil => exact .nil
  | cons y ys ih =>
      by_cases hy : y ∈ seen
      · simpa only [unseen, hy, if_true] using ih
      · simp only [unseen, hy, if_false, List.nodup_cons]
        exact ⟨fun hmem => (mem_unseen.mp hmem).2 List.mem_cons_self, ih⟩

end Unseen

/-- What holds of a sweep from `origin` when `done` have left the queue: all that was
seen is done or in the queue, once and nearer ones first; the queue spans at most two
distances; and all that follows what is done was seen. -/
structure Sweep {α : Type} (next : α → List α) (origin : α) (done seen queue : List α) : Prop where
  starts : origin ∈ seen
  seen_iff : ∀ u, u ∈ seen ↔ u ∈ done ++ queue
  nodup : (done ++ queue).Nodup
  closed : ∀ u ∈ done, ∀ v ∈ next u, v ∈ seen
  reached : ∀ u ∈ done ++ queue, ∃ n, Walk next origin n u
  sorted : (done ++ queue).Pairwise fun u v => distance next origin u ≤ distance next origin v
  spans : ∀ u ∈ queue, ∀ v ∈ queue, distance next origin v ≤ distance next origin u + 1

namespace Sweep

variable {α : Type} {next : α → List α} {origin x : α} {done seen queue ends : List α}

/-- At the start only the origin has been seen, and it waits in the queue. -/
theorem start : Sweep next origin [] [origin] [origin] where
  starts := List.mem_singleton_self _
  seen_iff _ := by simp
  nodup := by simp
  closed _ hu := absurd hu List.not_mem_nil
  reached u hu := ⟨0, by
    obtain rfl : u = origin := by simpa using hu
    exact .here⟩
  sorted := by simp
  spans u hu v hv := by
    obtain rfl : u = origin := by simpa using hu
    obtain rfl : v = u := by simpa using hv
    omega

section Round

variable (h : Sweep next origin done seen (x :: queue))

include h

/-- The head of the queue is at the least distance of all that wait. -/
theorem head_le {u : α} (hu : u ∈ x :: queue) :
    distance next origin x ≤ distance next origin u := by
  have hsorted := (List.pairwise_append.mp h.sorted).2.1
  rcases List.mem_cons.mp hu with rfl | hu
  · exact Nat.le_refl _
  · exact (List.pairwise_cons.mp hsorted).1 u hu

/-- All that is nearer than the head of the queue is done. -/
theorem done_of_nearer {n : Nat} {u : α} (walk : Walk next origin n u)
    (hn : n < distance next origin x) : u ∈ done := by
  have hseen : u ∈ seen := by
    induction walk with
    | here => exact h.starts
    | @edge n y z walk hz ih =>
        have hy : y ∈ done ++ x :: queue := (h.seen_iff y).mp (ih (by omega))
        rcases List.mem_append.mp hy with hy | hy
        · exact h.closed y hy z hz
        · have hle := h.head_le hy
          have hwalk := walk.distance_le
          omega
  rcases List.mem_append.mp ((h.seen_iff u).mp hseen) with hu | hu
  · exact hu
  · have hle := h.head_le hu
    have hwalk := walk.distance_le
    omega

variable [DecidableEq α]

/-- **What enters the queue** is one edge farther away than what leaves it. -/
theorem distance_found {v : α} (hv : v ∈ unseen seen (next x)) :
    distance next origin v = distance next origin x + 1 := by
  obtain ⟨hnext, hnew⟩ := mem_unseen.mp hv
  obtain ⟨n, walk⟩ := h.reached x (by simp)
  have hwalk : Walk next origin (distance next origin x + 1) v := walk.shortest.edge hnext
  have hle := hwalk.distance_le
  -- a shorter walk would come through something done, whose followers were all seen
  have hge : distance next origin x < distance next origin v := by
    by_contra hlt
    generalize hm : distance next origin v = m at hlt
    have hshort : Walk next origin m v := hm ▸ hwalk.shortest
    cases hshort with
    | here => exact hnew h.starts
    | edge before hz => exact hnew (h.closed _ (h.done_of_nearer before (by omega)) _ hz)
  omega

/-- One round of the sweep. -/
theorem step : Sweep next origin (done ++ [x]) (unseen seen (next x) ++ seen)
    (queue ++ unseen seen (next x)) := by
  have hlist : done ++ [x] ++ (queue ++ unseen seen (next x)) =
      done ++ x :: queue ++ unseen seen (next x) := by simp
  obtain ⟨n, walk⟩ := h.reached x (by simp)
  have hfound : ∀ v ∈ unseen seen (next x), v ∉ done ++ x :: queue := fun v hv hold =>
    (mem_unseen.mp hv).2 ((h.seen_iff v).mpr hold)
  have hbefore : ∀ u ∈ done ++ x :: queue,
      distance next origin u ≤ distance next origin x + 1 := by
    intro u hu
    rcases List.mem_append.mp hu with hu | hu
    · have hle := (List.pairwise_append.mp h.sorted).2.2 u hu x List.mem_cons_self
      omega
    · exact h.spans x List.mem_cons_self u hu
  refine
    { starts := List.mem_append_right _ h.starts
      seen_iff := fun u => ?_
      nodup := ?_
      closed := fun u hu v hv => ?_
      reached := fun u hu => ?_
      sorted := ?_
      spans := fun u hu v hv => ?_ }
  · rw [hlist, List.mem_append, List.mem_append, h.seen_iff u]
    exact or_comm
  · rw [hlist, List.nodup_append]
    refine ⟨h.nodup, nodup_unseen, fun u hu v hv heq => ?_⟩
    subst heq
    exact hfound u hv hu
  · by_cases hold : v ∈ seen
    · exact List.mem_append_right _ hold
    · rcases List.mem_append.mp hu with hu | hu
      · exact absurd (h.closed u hu v hv) hold
      · obtain rfl : u = x := by simpa using hu
        exact List.mem_append_left _ (mem_unseen.mpr ⟨hv, hold⟩)
  · rw [hlist] at hu
    rcases List.mem_append.mp hu with hu | hu
    · exact h.reached u hu
    · exact ⟨n + 1, walk.edge (mem_unseen.mp hu).1⟩
  · rw [hlist, List.pairwise_append]
    refine ⟨h.sorted, List.pairwise_of_forall_mem_list fun u hu v hv => ?_, fun u hu v hv => ?_⟩
    · rw [h.distance_found hu, h.distance_found hv]
    · rw [h.distance_found hv]
      exact hbefore u hu
  · have hle : ∀ w ∈ queue ++ unseen seen (next x),
        distance next origin x ≤ distance next origin w ∧
          distance next origin w ≤ distance next origin x + 1 := by
      intro w hw
      rcases List.mem_append.mp hw with hw | hw
      · exact ⟨h.head_le (List.mem_cons_of_mem _ hw), h.spans x List.mem_cons_self w
          (List.mem_cons_of_mem _ hw)⟩
      · have hw := h.distance_found hw
        omega
    have hu := hle u hu
    have hv := hle v hv
    omega

end Round

section Finish

variable (h : Sweep next origin done seen queue)

include h

/-- All that has entered the queue is an end of an edge, the origin apart. -/
theorem length_le (hnext : ∀ u, ∀ v ∈ next u, v ∈ ends) :
    (done ++ queue).length ≤ ends.length + 1 := by
  have hsub : done ++ queue ⊆ origin :: ends := by
    intro u hu
    obtain ⟨n, walk⟩ := h.reached u hu
    rcases walk.eq_or_mem with rfl | ⟨v, hv⟩
    · exact List.mem_cons_self
    · exact List.mem_cons_of_mem _ (hnext v u hv)
  exact (h.nodup.subperm hsub).length_le

variable [DecidableEq α]

/-- **The sweep ends by itself**: the bound on the rounds is never what ends it. -/
theorem finish (hnext : ∀ u, ∀ v ∈ next u, v ∈ ends) {n : Nat}
    (hn : ends.length + 1 ≤ n + done.length) :
    (∃ seen', Sweep next origin (done ++ reach next n seen queue) seen' []) ∧
      ∀ m, n ≤ m → reach next m seen queue = reach next n seen queue := by
  induction n generalizing done seen queue with
  | zero =>
      have hlen := h.length_le hnext
      rw [List.length_append] at hlen
      obtain rfl : queue = [] := List.length_eq_zero_iff.mp (by omega)
      refine ⟨⟨seen, by simpa [reach] using h⟩, fun m _ => ?_⟩
      cases m with
      | zero => rfl
      | succ m => rfl
  | succ n ih =>
      cases queue with
      | nil =>
          refine ⟨⟨seen, by simpa [reach] using h⟩, fun m hm => ?_⟩
          obtain ⟨m, rfl⟩ : ∃ k, m = k + 1 := ⟨m - 1, by omega⟩
          rfl
      | cons x queue =>
          obtain ⟨hsweep, hmore⟩ := ih h.step (by
            rw [List.length_append, List.length_singleton]
            omega)
          refine ⟨?_, fun m hm => ?_⟩
          · obtain ⟨seen', hsweep⟩ := hsweep
            rw [List.append_assoc] at hsweep
            exact ⟨seen', hsweep⟩
          · obtain ⟨m, rfl⟩ : ∃ k, m = k + 1 := ⟨m - 1, by omega⟩
            exact congrArg (x :: ·) (hmore m (by omega))

end Finish

section Swept

variable (h : Sweep next origin done seen [])

include h

/-- At the end every vertex has come once. -/
theorem nodup_done : done.Nodup := by simpa using h.nodup

/-- At the end the vertices have come by distance. -/
theorem sorted_done :
    done.Pairwise fun u v => distance next origin u ≤ distance next origin v := by
  simpa using h.sorted

/-- When the queue is empty all that is reached is done. -/
theorem mem_iff (u : α) :
    u ∈ done ↔ ∃ n, Walk next origin n u := by
  have hdone : ∀ v, v ∈ seen ↔ v ∈ done := by simpa using h.seen_iff
  constructor
  · exact fun hu => h.reached u (List.mem_append_left _ hu)
  · intro hex
    obtain ⟨n, walk⟩ := hex
    induction walk with
    | here => exact (hdone _).mp h.starts
    | edge _ hz ih => exact (hdone _).mp (h.closed _ ih _ hz)

end Swept

end Sweep

namespace Declarations

/-- The trait `parent` is declared as a parent of `t`. -/
def IsParent (d : Declarations) (t parent : TraitId) : Prop :=
  ∃ decl, d.trait? t = some decl ∧ parent ∈ decl.parents

/-- The least number of edges that leads from a trait to an ancestor. -/
noncomputable def distance (d : Declarations) (t ancestor : TraitId) : Nat :=
  DotCall.distance d.parents t ancestor

/-- The database of a program when nothing special is said about entailment, so that
it is read off the lineage. -/
def lineageDatabase (d : Declarations) : Database where
  implsFor := d.implsFor
  implementors := d.implementors
  impl? := d.impl?
  methodOfImpl? := d.methodOfImpl?
  methodOfTrait? := d.methodOfTrait?
  traitNamed? := d.traitNamed?
  nameOf := d.nameOf
  lineage := d.lineage

variable (d : Declarations) {t u v : TraitId}

/-- The parents that are looked up are the declared ones. -/
theorem mem_parents : u ∈ d.parents t ↔ d.IsParent t u := by
  unfold parents IsParent
  cases d.trait? t <;> simp

/-- The bound on the sweep is the number of all declared parents, counted with
repetitions. -/
theorem parentEdges_eq : d.parentEdges = (d.traits.toList.flatMap (·.parents)).length := by
  unfold parentEdges
  induction d.traits.toList with
  | nil => rfl
  | cons decl decls ih => simp [ih]

/-- Whatever is reached was declared as a parent somewhere. -/
theorem parents_subset : ∀ t, ∀ u ∈ d.parents t, u ∈ d.traits.toList.flatMap (·.parents) := by
  intro t u hu
  obtain ⟨decl, hdecl, hu⟩ := d.mem_parents.mp hu
  have hmem : decl ∈ d.traits := Array.mem_of_getElem? hdecl
  exact List.mem_flatMap.mpr ⟨decl, by simpa using hmem, hu⟩

/-- The lineage is what a sweep from the trait collects. -/
theorem lineage_sweep (t : TraitId) : ∃ seen, Sweep d.parents t (d.lineage t) seen [] := by
  have hstart : Sweep d.parents t [] [t] [t] := .start
  obtain ⟨hsweep, -⟩ := hstart.finish d.parents_subset (n := d.parentEdges + 1)
    (by rw [d.parentEdges_eq]; simp)
  exact hsweep

/-- The lineage of a trait is the trait with all that its declared parents lead to. -/
theorem mem_lineage : u ∈ d.lineage t ↔ Relation.ReflTransGen d.IsParent t u := by
  obtain ⟨seen, hsweep⟩ := d.lineage_sweep t
  have hrel : (fun u v => v ∈ d.parents u) = d.IsParent := by
    funext u v
    exact propext d.mem_parents
  rw [hsweep.mem_iff, exists_walk_iff, hrel]

/-- A trait entails those of its lineage and no others. -/
theorem entails_iff : d.entails t u = true ↔ Relation.ReflTransGen d.IsParent t u := by
  rw [← d.mem_lineage, lineage, List.mem_cons, entails, decide_eq_true_iff]
  exact or_congr_left eq_comm

/-- **The ancestors of a trait** are exactly the traits reached from it by one or more
edges to parents, the trait itself apart, each once and nearer ones first.  Collecting
them ends by itself: with more rounds nothing else comes out.  The lineage puts the trait
in front.  Entailment is reachability by any number of edges, whether it is asked of the
ancestors or read off the lineage, so it is reflexive and transitive. -/
theorem ancestors_exact :
    (∀ t, (d.ancestors t).Nodup ∧
      (∀ u, u ∈ d.ancestors t ↔ u ≠ t ∧ Relation.TransGen d.IsParent t u) ∧
      (d.ancestors t).Pairwise (fun u v => d.distance t u ≤ d.distance t v) ∧
      (∀ rounds, d.parentEdges ≤ rounds →
        let direct := unseen [t] (d.parents t)
        reach d.parents rounds (direct ++ [t]) direct = d.ancestors t) ∧
      d.lineage t = t :: d.ancestors t) ∧
    (∀ t u, (d.database.entails t u = true ↔ Relation.ReflTransGen d.IsParent t u) ∧
      d.lineageDatabase.entails t u = d.database.entails t u) ∧
    (∀ t, d.database.entails t t = true) ∧
    ∀ t u v, d.database.entails t u = true → d.database.entails u v = true →
      d.database.entails t v = true := by
  refine ⟨fun t => ?_, fun t u => ⟨d.entails_iff, ?_⟩, fun t => ?_, fun t u v => ?_⟩
  · obtain ⟨seen, hsweep⟩ := d.lineage_sweep t
    obtain ⟨hself, hnodup⟩ := List.nodup_cons.mp hsweep.nodup_done
    obtain ⟨-, hsorted⟩ := List.pairwise_cons.mp hsweep.sorted_done
    have hmem : ∀ u, u ∈ t :: d.ancestors t ↔ Relation.ReflTransGen d.IsParent t u :=
      fun u => d.mem_lineage
    refine ⟨hnodup, fun u => ?_, hsorted, ?_, rfl⟩
    · by_cases hu : u = t
      · subst hu
        exact iff_of_false hself (by simp)
      · have hu' := hmem u
        rw [List.mem_cons, or_iff_right hu, Relation.reflTransGen_iff_eq_or_transGen,
          or_iff_right hu] at hu'
        rw [hu', and_iff_right hu]
    · intro rounds hrounds
      have hstart : Sweep d.parents t [] [t] [t] := .start
      obtain ⟨-, hmore⟩ := hstart.step.finish d.parents_subset (n := d.parentEdges)
        (by rw [d.parentEdges_eq]; simp)
      exact hmore rounds hrounds
  · have hboth := d.entails_iff (t := t) (u := u)
    rw [← d.mem_lineage] at hboth
    rw [Bool.eq_iff_iff]
    exact decide_eq_true_iff.trans hboth.symm
  · exact d.entails_iff.mpr .refl
  · intro htu huv
    exact d.entails_iff.mpr ((d.entails_iff.mp htu).trans (d.entails_iff.mp huv))

end Declarations

end DotCall
