import DotCall.Proofs.Commitments
import DotCall.Proofs.ReceiverSteps

/-!
# The chain of a receiver up to a limit

Dereferencing again and again gives a sequence of types, whatever the limit is: the
receiver, expanded, and after each type what it dereferences to, expanded.  With the rules
of a program the sequence can end, run in a circle or give a larger type each time.

A place of the sequence **overruns** if the type there came before, or if the place is
beyond the limit.  The search for the steps goes along the sequence to the first place that
overruns, and reports the type there; if none does, it finds all of the sequence, and what
the last type unsizes to comes after it.  That there is always one or the other bounds the
search: a sequence that does not end has a place beyond the limit.

The induction is on the room that is left.  What carries it is that `seen` holds the types
at the places before (`Resolver.CameBefore`) and that none of those places overruns.
-/

namespace DotCall

open TypeStore

namespace Resolver

variable (r : Resolver) (receiver : TypeId) (s : TypeStore)

/-- The type after `k` dereferences, while there is one. -/
def derefAfter : Nat → StateM TypeStore (Option TypeId)
  | 0 => do
    let first ← expand receiver
    pure (some first)
  | k + 1 => do
    match ← derefAfter k with
    | none => pure none
    | some current =>
      match ← r.coercions.deref? current with
      | none => pure none
      | some next =>
        let next ← expand next
        pure (some next)

/-- The type at the `k`-th place of the sequence. -/
def place? (k : Nat) : Option TypeId := ((r.derefAfter receiver k).run s).1

/-- The store once the `k`-th place has been reached. -/
def placeStore (k : Nat) : TypeStore := ((r.derefAfter receiver k).run s).2

/-- The type is at a place before the `k`-th. -/
def CameBefore (k : Nat) (t : TypeId) : Prop := ∃ j < k, r.place? receiver s j = some t

/-- The type at the `k`-th place came before, or the place is beyond the limit. -/
def Overruns (k : Nat) : Prop :=
  ∃ t, r.place? receiver s k = some t ∧
    (r.CameBefore receiver s k t ∨ r.settings.maxDerefs < k)

/-- The `k`-th place is the first that overruns, with the type `t`. -/
structure FirstOverrun (k : Nat) (t : TypeId) : Prop where
  found : r.place? receiver s k = some t
  overruns : r.CameBefore receiver s k t ∨ r.settings.maxDerefs < k
  first : ∀ j < k, ¬ r.Overruns receiver s j

/-- How the search ends that has come to the `k`-th place: at the first place that
overruns, or with the types of the `n` places from there on, after which there is none. -/
inductive SearchEnds (k : Nat) : Except Failure (List TypeId) → TypeStore → Prop where
  | overrun {m : Nat} {t : TypeId} {cycle : Bool} (bounded : m ≤ r.settings.maxDerefs + 1)
      (first : r.FirstOverrun receiver s m t)
      (cycle_iff : cycle = true ↔ r.CameBefore receiver s m t) :
      SearchEnds k (.error (.endlessDeref receiver t cycle)) (r.placeStore receiver s m)
  | whole {n : Nat} {chain : List TypeId} (bounded : k + n ≤ r.settings.maxDerefs + 1)
      (types : chain.map some = (List.range' k n).map (r.place? receiver s))
      (ends : r.place? receiver s (k + n) = none) (never : ∀ j, ¬ r.Overruns receiver s j) :
      SearchEnds k (.ok chain) (r.placeStore receiver s (k + n))

variable {r receiver s} {k : Nat} {t : TypeId}

/-- Where dereferencing yields nothing the chain has come to its end. -/
theorem place_of_deref_none {y : TypeStore} (ht : r.place? receiver s k = some t)
    (hderef : (r.coercions.deref? t).run (r.placeStore receiver s k) = (none, y)) :
    r.place? receiver s (k + 1) = none ∧ r.placeStore receiver s (k + 1) = y := by
  have hrun : (r.derefAfter receiver (k + 1)).run s = (none, y) := by
    rw [place?] at ht
    rw [placeStore] at hderef
    simp only [derefAfter, run_bind, ht, hderef, run_pure]
  simp only [place?, placeStore, hrun, and_self]

/-- Otherwise the next place is what it yields, written out. -/
theorem place_of_deref_some {y : TypeStore} {next : TypeId}
    (ht : r.place? receiver s k = some t)
    (hderef : (r.coercions.deref? t).run (r.placeStore receiver s k) = (some next, y)) :
    r.place? receiver s (k + 1) = some ((expand next).run y).1 ∧
      r.placeStore receiver s (k + 1) = ((expand next).run y).2 := by
  have hrun : (r.derefAfter receiver (k + 1)).run s =
      (some ((expand next).run y).1, ((expand next).run y).2) := by
    rw [place?] at ht
    rw [placeStore] at hderef
    simp only [derefAfter, run_bind, ht, hderef, run_pure]
  simp only [place?, placeStore, hrun, and_self]

/-- Behind the end there is nothing, and the store stays as it is. -/
theorem place_of_none (hk : r.place? receiver s k = none) :
    r.place? receiver s (k + 1) = none ∧
      r.placeStore receiver s (k + 1) = r.placeStore receiver s k := by
  have hrun : (r.derefAfter receiver (k + 1)).run s = (none, r.placeStore receiver s k) := by
    rw [place?] at hk
    simp only [derefAfter, run_bind, hk, run_pure, placeStore]
  simp only [place?, placeStore, hrun, and_self]

/-- After the end there is nothing. -/
theorem place_eq_none {m : Nat} (hk : r.place? receiver s k = none) (hle : k ≤ m) :
    r.place? receiver s m = none := by
  induction m, hle using Nat.le_induction with
  | base => exact hk
  | succ m _ ih => exact (place_of_none ih).1

theorem cameBefore_succ (ht : r.place? receiver s k = some t) {u : TypeId} :
    r.CameBefore receiver s (k + 1) u ↔ u = t ∨ r.CameBefore receiver s k u := by
  constructor
  · intro h
    obtain ⟨j, hj, hu⟩ := h
    by_cases hjk : j = k
    · subst hjk
      exact .inl (Option.some.inj (hu.symm.trans ht))
    · exact .inr ⟨j, by omega, hu⟩
  · intro h
    obtain rfl | h := h
    · exact ⟨k, by omega, ht⟩
    · obtain ⟨j, hj, hu⟩ := h
      exact ⟨j, by omega, hu⟩

/-- If a place is the last and none up to it overruns, none does. -/
theorem never_overruns (hbefore : ∀ j ≤ k, ¬ r.Overruns receiver s j)
    (hend : r.place? receiver s (k + 1) = none) (j : Nat) : ¬ r.Overruns receiver s j := by
  intro hover
  obtain ⟨t, ht, -⟩ := id hover
  by_cases hj : j ≤ k
  · exact hbefore j hj hover
  · simp [place_eq_none hend (by omega : k + 1 ≤ j)] at ht

/-- There is one first place that overruns. -/
theorem FirstOverrun.unique {m : Nat} {u : TypeId} (h : r.FirstOverrun receiver s k t)
    (h' : r.FirstOverrun receiver s m u) : k = m ∧ t = u := by
  have hk : ¬ k < m := fun hlt => h'.first k hlt ⟨t, h.found, h.overruns⟩
  have hm : ¬ m < k := fun hlt => h.first m hlt ⟨u, h'.found, h'.overruns⟩
  obtain rfl : k = m := by omega
  exact ⟨rfl, Option.some.inj (h.found.symm.trans h'.found)⟩

/-- The search that goes on from the next place ends for this place too. -/
theorem SearchEnds.back {o : Except Failure (List TypeId)} {y : TypeStore}
    (h : r.SearchEnds receiver s (k + 1) o y) (ht : r.place? receiver s k = some t) :
    r.SearchEnds receiver s k (o.map (t :: ·)) y := by
  cases h with
  | overrun bounded first cycle_iff => exact .overrun bounded first cycle_iff
  | @whole n chain bounded types ends never =>
      rw [Nat.add_assoc, Nat.add_comm 1 n] at bounded ends ⊢
      refine .whole bounded ?_ ends never
      rw [List.map_cons, types, ← ht, ← List.map_cons, ← List.range'_succ]

/-- **The search goes along the sequence** to the first place that overruns or to the end. -/
theorem derefChain_ends {room : Nat} {seen : List TypeId} {current : TypeId}
    (hroom : k + room = r.settings.maxDerefs + 1)
    (hcurrent : r.place? receiver s k = some current)
    (hseen : ∀ t, t ∈ seen ↔ r.CameBefore receiver s k t)
    (hbefore : ∀ j < k, ¬ r.Overruns receiver s j) :
    let run := (r.derefChain receiver room seen current).run (r.placeStore receiver s k)
    r.SearchEnds receiver s k run.1 run.2 := by
  induction room generalizing k seen current with
  | zero =>
      refine .overrun (by omega) ⟨hcurrent, .inr (by omega), hbefore⟩ ?_
      rw [decide_eq_true_iff]
      exact hseen current
  | succ room ih =>
      intro run
      by_cases hmem : current ∈ seen
      · have hrun : run = (.error (.endlessDeref receiver current true),
            r.placeStore receiver s k) := by
          simp only [run, derefChain, hmem, if_true, run_pure]
        have hcame := (hseen current).mp hmem
        rw [hrun]
        exact .overrun (by omega) ⟨hcurrent, .inl hcame, hbefore⟩ (by simp [hcame])
      have hhere : ∀ j < k + 1, ¬ r.Overruns receiver s j := by
        intro j hj hover
        by_cases hjk : j = k
        · subst hjk
          obtain ⟨t, ht, hcame | hlimit⟩ := hover
          · obtain rfl := Option.some.inj (hcurrent.symm.trans ht)
            exact hmem ((hseen current).mpr hcame)
          · omega
        · exact hbefore j (by omega) hover
      obtain ⟨y, hy⟩ : ∃ y, (r.coercions.deref? current).run (r.placeStore receiver s k) = y :=
        ⟨_, rfl⟩
      obtain ⟨next?, y⟩ := y
      cases next? with
      | none =>
          obtain ⟨hend, hstore⟩ := place_of_deref_none hcurrent hy
          have hrun : run = (.ok [current], r.placeStore receiver s (k + 1)) := by
            simp only [run, derefChain, hmem, if_false, run_bind, hy, run_pure, hstore]
          rw [hrun]
          refine .whole (by omega) ?_ hend (never_overruns (fun j hj => hhere j (by omega)) hend)
          simp [hcurrent]
      | some next =>
          obtain ⟨hnext, hstore⟩ := place_of_deref_some hcurrent hy
          have hseen' : ∀ t, t ∈ current :: seen ↔ r.CameBefore receiver s (k + 1) t := fun t => by
            rw [List.mem_cons, hseen, cameBefore_succ hcurrent]
          have hlater := ih (by omega) hnext hseen' hhere
          obtain ⟨z, hz⟩ : ∃ z, (r.derefChain receiver room (current :: seen)
            ((expand next).run y).1).run ((expand next).run y).2 = z := ⟨_, rfl⟩
          rw [hstore, hz] at hlater
          have hrun : run = (z.1.map (current :: ·), z.2) := by
            simp only [run, derefChain, hmem, if_false, run_bind, hy, hz]
            cases z.1 <;> rfl
          rw [hrun]
          exact hlater.back hcurrent

/-- The search for the chain of the receiver starts at the first place. -/
theorem exists_searchEnds (r : Resolver) (receiver : TypeId) (s : TypeStore) :
    ∃ first o y, (expand receiver).run s = first ∧
      (r.derefChain receiver (r.settings.maxDerefs + 1) [] first.1).run first.2 = (o, y) ∧
      r.SearchEnds receiver s 0 o y := by
  have hfirst : r.place? receiver s 0 = some ((expand receiver).run s).1 := rfl
  have hseen : ∀ t, t ∈ ([] : List TypeId) ↔ r.CameBefore receiver s 0 t := by simp [CameBefore]
  have hends := derefChain_ends (Nat.zero_add _) hfirst hseen (by simp)
  exact ⟨_, _, _, rfl, rfl, hends⟩

/-- No limit and no rules let the search go on forever. -/
theorem exists_firstOverrun_or_never (r : Resolver) (receiver : TypeId) (s : TypeStore) :
    (∃ k ≤ r.settings.maxDerefs + 1, ∃ t, r.FirstOverrun receiver s k t) ∨
      ∀ k, ¬ r.Overruns receiver s k := by
  obtain ⟨_, _, _, -, -, hends⟩ := exists_searchEnds r receiver s
  cases hends with
  | overrun bounded first _ => exact .inl ⟨_, bounded, _, first⟩
  | whole _ _ _ never => exact .inr never

/-- The type at the first place that overruns is what is reported. -/
theorem stepsOf_of_firstOverrun (h : r.FirstOverrun receiver s k t) :
    ∃ cycle, ((r.stepsOf receiver).run s).1 = .error (.endlessDeref receiver t cycle) ∧
      (cycle = true ↔ r.CameBefore receiver s k t) := by
  obtain ⟨first, o, y, hfirst, hchain, hends⟩ := exists_searchEnds r receiver s
  cases hends with
  | @overrun m u cycle _ found cycle_iff =>
      obtain ⟨rfl, rfl⟩ := h.unique found
      refine ⟨cycle, ?_, cycle_iff⟩
      simp only [stepsOf, run_bind, hfirst, hchain, run_pure]
  | whole _ _ _ never => exact absurd ⟨t, h.found, h.overruns⟩ (never k)

section Chain

variable {n : Nat} {chain : List TypeId}
  (types : chain.map some = (List.range n).map (r.place? receiver s))

include types

theorem length_chain : chain.length = n := by
  simpa using congrArg List.length types

theorem getElem?_chain {i : Nat} (hi : i < n) : chain[i]? = r.place? receiver s i := by
  obtain ⟨t, ht, hplace⟩ : ∃ t, chain[i]? = some t ∧ some t = r.place? receiver s i := by
    simpa [List.getElem?_range hi] using congrArg (·[i]?) types
  exact ht.trans hplace

/-- Where no place overruns, all types are different. -/
theorem nodup_chain (never : ∀ j, ¬ r.Overruns receiver s j) : chain.Nodup := by
  rw [List.Nodup, List.pairwise_iff_getElem]
  intro i j hi hj hij heq
  have hlength := length_chain types
  have hplace : r.place? receiver s i = some chain[i] := by
    rw [← getElem?_chain types (by omega), List.getElem?_eq_getElem hi]
  have hplace' : r.place? receiver s j = some chain[j] := by
    rw [← getElem?_chain types (by omega), List.getElem?_eq_getElem hj]
  exact never j ⟨_, hplace', .inl ⟨i, hij, heq ▸ hplace⟩⟩

end Chain

/-- The dereferences that reach a step of a chain of `n + 1` types. -/
theorem derefCount_steps {n : Nat} {chain : List TypeId} {last? : Option TypeId}
    (hlength : chain.length = n + 1) {i : Nat} {step : Step}
    (hstep : (Stepping.steps chain last?)[i]? = some step) :
    step.derefCount i = if step.unsized then n else i := by
  unfold Stepping.steps at hstep
  by_cases hi : i < n + 1
  · rw [List.getElem?_append_left (by simpa [hlength] using hi), List.getElem?_map] at hstep
    obtain ⟨t, -, rfl⟩ := Option.map_eq_some_iff.mp hstep
    rfl
  · rw [List.getElem?_append_right (by simp [hlength]; omega), List.getElem?_map] at hstep
    obtain ⟨u, hu, rfl⟩ := Option.map_eq_some_iff.mp hstep
    obtain ⟨hlt, -⟩ := List.getElem?_eq_some_iff.mp hu
    have hone : last?.toList.length ≤ 1 := by cases last? <;> simp
    rw [List.length_map, hlength] at hlt
    simp only [Step.derefCount, if_true]
    omega

/-- If no place overruns, the steps are the whole sequence and what its last type unsizes
to. -/
theorem stepsOf_of_never (never : ∀ k, ¬ r.Overruns receiver s k) :
    ∃ n ≤ r.settings.maxDerefs, ∃ chain last,
      chain.map some = (List.range (n + 1)).map (r.place? receiver s) ∧
      r.place? receiver s n = some last ∧ r.place? receiver s (n + 1) = none ∧
      let unsized := (r.coercions.unsize? last).run (r.placeStore receiver s (n + 1))
      let last? := unsized.1.map fun target => ((expand target).run unsized.2).1
      ((r.stepsOf receiver).run s).1 = .ok (Stepping.steps chain last?) := by
  obtain ⟨first, o, y, hfirst, hchain, hends⟩ := exists_searchEnds r receiver s
  have hplace : r.place? receiver s 0 = some first.1 := by
    simp only [place?, derefAfter, run_bind, hfirst, run_pure]
  cases hends with
  | overrun _ found _ => exact absurd ⟨_, found.found, found.overruns⟩ (never _)
  | @whole m chain bounded types ends _ =>
      rw [Nat.zero_add] at bounded ends hchain
      rw [← List.range_eq_range'] at types
      obtain ⟨n, rfl⟩ : ∃ n, m = n + 1 := by
        cases m with
        | zero => simp [hplace] at ends
        | succ n => exact ⟨n, rfl⟩
      have hlength := length_chain types
      have hlast : chain.getLast? = r.place? receiver s n := by
        rw [List.getLast?_eq_getElem?, hlength, getElem?_chain types (by omega)]
        rfl
      obtain ⟨last, hget⟩ : ∃ last, chain.getLast? = some last :=
        ⟨chain.getLast (List.ne_nil_of_length_pos (by omega)), List.getLast?_eq_some_getLast _⟩
      refine ⟨n, by omega, chain, last, types, hlast ▸ hget, ends, ?_⟩
      intro unsized last?
      have hunsize : ((r.unsizeLast? chain).run (r.placeStore receiver s (n + 1))).1 = last? := by
        obtain ⟨u, hu⟩ : ∃ u, unsized = u := ⟨_, rfl⟩
        simp only [last?, hu]
        obtain ⟨target?, x⟩ := u
        cases target? with
        | none => simp only [unsizeLast?, hget, run_bind, unsized, hu, run_pure, Option.map_none]
        | some target =>
            simp only [unsizeLast?, hget, run_bind, unsized, hu, run_pure, Option.map_some]
      simp only [stepsOf, run_bind, hfirst, hchain, run_pure, hunsize, Stepping.steps]

section Program

variable {d : Declarations} {settings : Settings} {bounds : Bounds}

/-- From one place to the next the store changes quietly, and the type there is expanded. -/
theorem place_step (hr : r.coercions = d.coercions) (hx : (r.placeStore receiver s k).Ordered)
    (hd : d.RulesWithin (r.placeStore receiver s k))
    (hhas : ∀ t, r.place? receiver s k = some t → (r.placeStore receiver s k).Has t) :
    Quiet (r.placeStore receiver s k) (r.placeStore receiver s (k + 1)) ∧
      ∀ u, r.place? receiver s (k + 1) = some u →
        (r.placeStore receiver s (k + 1)).Expanded u := by
  cases hplace : r.place? receiver s k with
  | none =>
      obtain ⟨hnone, hstore⟩ := place_of_none hplace
      rw [hstore, hnone]
      exact ⟨.refl hx, fun _ h => by cases h⟩
  | some t =>
      obtain ⟨hq, hanswer⟩ := d.calm_deref? hd.1 (hhas t hplace) _ (.refl hx)
      obtain ⟨y, hy⟩ : ∃ y, (d.deref? t).run (r.placeStore receiver s k) = y := ⟨_, rfl⟩
      have hderef : (r.coercions.deref? t).run (r.placeStore receiver s k) = y := by rwa [hr]
      rw [hy] at hq hanswer
      obtain ⟨next?, y⟩ := y
      cases next? with
      | none =>
          obtain ⟨hnone, hstore⟩ := place_of_deref_none hplace hderef
          rw [hstore, hnone]
          exact ⟨hq, fun _ h => by cases h⟩
      | some next =>
          obtain ⟨hnext, hstore⟩ := place_of_deref_some hplace hderef
          obtain ⟨hq', hexpanded, -⟩ := hq.finish.expand_expanded (hanswer next rfl)
          rw [hstore, hnext]
          refine ⟨hq.trans hq', fun u hu => ?_⟩
          cases hu
          exact hexpanded

/-- **The sequence is found quietly**, and each type of it is expanded. -/
theorem place_spec (hs : s.Ordered) (hd : d.RulesWithin s) (ht : s.Has receiver)
    (hr : r.coercions = d.coercions) (k : Nat) :
    Quiet s (r.placeStore receiver s k) ∧
      ∀ t, r.place? receiver s k = some t → (r.placeStore receiver s k).Expanded t := by
  induction k with
  | zero =>
      obtain ⟨hq, hexpanded, -⟩ := hs.expand_expanded ht
      refine ⟨hq, fun t hplace => ?_⟩
      cases hplace
      exact hexpanded
  | succ k ih =>
      obtain ⟨hq, hexpanded⟩ := ih
      obtain ⟨hstep, hnext⟩ := place_step hr hq.finish (hd.grows hq.grows)
        fun t hplace => (hexpanded t hplace).1
      exact ⟨hq.trans hstep, hnext⟩

/-- From each place to a later one only quiet work is done. -/
theorem placeStore_quiet (hs : s.Ordered) (hd : d.RulesWithin s) (ht : s.Has receiver)
    (hr : r.coercions = d.coercions) {j : Nat} (hjk : j ≤ k) :
    Quiet (r.placeStore receiver s j) (r.placeStore receiver s k) := by
  induction k, hjk using Nat.le_induction with
  | base => exact .refl (place_spec hs hd ht hr j).1.finish
  | succ k _ ih =>
      obtain ⟨hq, hexpanded⟩ := place_spec hs hd ht hr k
      exact ih.trans (place_step hr hq.finish (hd.grows hq.grows)
        fun t hplace => (hexpanded t hplace).1).1

/-- Two places have one type if the types there mean the same. -/
theorem place_eq_iff (hs : s.Ordered) (hd : d.RulesWithin s) (ht : s.Has receiver)
    (hr : r.coercions = d.coercions) {j : Nat} {t u : TypeId} (hjk : j ≤ k)
    (hj : r.place? receiver s j = some t) (hk : r.place? receiver s k = some u) :
    let x := r.placeStore receiver s k
    x.Expanded t ∧ x.Expanded u ∧ (t = u ↔ x.meaning t = x.meaning u) := by
  intro x
  obtain ⟨hq, hexpanded⟩ := place_spec hs hd ht hr k
  have hu : x.Expanded u := hexpanded u hk
  have ht' : x.Expanded t :=
    ((place_spec hs hd ht hr j).2 t hj).quiet (placeStore_quiet hs hd ht hr hjk)
  refine ⟨ht', hu, fun heq => by rw [heq], fun hmeaning => ?_⟩
  exact hq.finish.wellFormed.written_injective ht'.1 hu.1 (by rw [ht'.2, hu.2, hmeaning])

/-- **The steps of a receiver are the bounded chain.**  On a store whose links do not run
in a circle, some place of the sequence is the first that overruns, or none does.  If one
is, it is at most one beyond the limit, and the type there is reported, as a cycle just if
it came before.  If none is, the steps are all the types of the sequence, which are
different and at most one more than the limit, and after them, just if there is such a
type, what the last one unsizes to, expanded; the count of a step is the number of
dereferences that reach it.  A type comes again just if one that means the same came
before, since all of them are expanded. -/
theorem stepsOf_bounded (settings : Settings) (bounds : Bounds) (hs : s.Ordered)
    (hd : d.RulesWithin s) (ht : s.Has receiver) :
    let r := d.resolver settings bounds
    let c := r.place? receiver s
    let result := ((r.stepsOf receiver).run s).1
    ((∃ k t, r.FirstOverrun receiver s k t) ∨ ∀ k, ¬ r.Overruns receiver s k) ∧
    (∀ k t, r.FirstOverrun receiver s k t →
      k ≤ settings.maxDerefs + 1 ∧ ∃ cycle,
        result = .error (.endlessDeref receiver t cycle) ∧
          (cycle = true ↔ ∃ j < k, c j = some t)) ∧
    ((∀ k, ¬ r.Overruns receiver s k) → ∃ n ≤ settings.maxDerefs, ∃ chain last,
      chain.map some = (List.range (n + 1)).map c ∧ chain.Nodup ∧
      c n = some last ∧ c (n + 1) = none ∧
      let unsized := (d.unsize? last).run (r.placeStore receiver s (n + 1))
      let last? := unsized.1.map fun target => ((expand target).run unsized.2).1
      let steps := Stepping.steps chain last?
      result = .ok steps ∧ ∀ i step, steps[i]? = some step →
        step.derefCount i = if step.unsized then n else i) ∧
    ∀ j k t u, j ≤ k → c j = some t → c k = some u →
      let x := r.placeStore receiver s k
      x.Expanded t ∧ x.Expanded u ∧ (t = u ↔ x.meaning t = x.meaning u) := by
  intro r c result
  refine ⟨?_, fun k t hfirst => ⟨?_, stepsOf_of_firstOverrun hfirst⟩, fun never => ?_,
    fun j k t u hjk hj hk => place_eq_iff hs hd ht rfl hjk hj hk⟩
  · obtain ⟨k, -, t, hfirst⟩ | never := exists_firstOverrun_or_never r receiver s
    · exact .inl ⟨k, t, hfirst⟩
    · exact .inr never
  · obtain ⟨m, hm, u, hfirst'⟩ | never := exists_firstOverrun_or_never r receiver s
    · exact (hfirst.unique hfirst').1 ▸ hm
    · exact absurd ⟨t, hfirst.found, hfirst.overruns⟩ (never k)
  · obtain ⟨n, hn, chain, last, types, hlast, hend, hresult⟩ := stepsOf_of_never never
    exact ⟨n, hn, chain, last, types, nodup_chain types never, hlast, hend, hresult,
      fun i step hstep => derefCount_steps (length_chain types) hstep⟩

/-- By one rule `i32` dereferences to `bool` and by another one `bool` to `i32`, which is
reported as a cycle after two dereferences. -/
theorem stepsOf_bounded_circle :
    let there : Rule := ⟨0, .ofPrimitive .i32, .ofPrimitive .bool⟩
    let back : Rule := ⟨0, .ofPrimitive .bool, .ofPrimitive .i32⟩
    let d := { Declarations.empty with derefs := [there, back] }
    (((d.resolver {} .empty).stepsOf (.ofPrimitive .i32)).run new).1 =
      .error (.endlessDeref (.ofPrimitive .i32) (.ofPrimitive .i32) true) := by
  intro there back d
  have hrules : d.RulesWithin new := by
    refine ⟨fun rule hmem => ?_, fun rule hmem => absurd hmem (by simp [d, Declarations.empty])⟩
    obtain rfl | rfl : rule = there ∨ rule = back := by simpa [d] using hmem
    · exact ⟨by decide, by decide⟩
    · exact ⟨by decide, by decide⟩
  let r := d.resolver {} .empty
  have h0 : r.place? (.ofPrimitive .i32) new 0 = some (.ofPrimitive .i32) := by decide +kernel
  have h1 : r.place? (.ofPrimitive .i32) new 1 = some (.ofPrimitive .bool) := by decide +kernel
  have h2 : r.place? (.ofPrimitive .i32) new 2 = some (.ofPrimitive .i32) := by decide +kernel
  have hfirst : r.FirstOverrun (.ofPrimitive .i32) new 2 (.ofPrimitive .i32) := by
    refine ⟨h2, .inl ⟨0, by decide, h0⟩, fun j hj hover => ?_⟩
    obtain ⟨t, ht, ⟨i, hi, hcame⟩ | hlimit⟩ := hover
    · obtain ⟨rfl, rfl⟩ : j = 1 ∧ i = 0 := by omega
      obtain rfl := Option.some.inj (h1.symm.trans ht)
      exact absurd (h0.symm.trans hcame) (by decide)
    · have hdefault : r.settings.maxDerefs = 128 := rfl
      omega
  obtain ⟨-, hover, -⟩ := stepsOf_bounded {} .empty new_sound.ordered hrules
    (by decide : new.Has (.ofPrimitive .i32))
  obtain ⟨-, cycle, hresult, hcycle⟩ := hover 2 _ hfirst
  rw [hresult, hcycle.mpr ⟨0, by decide, h0⟩]

end Program

end Resolver

end DotCall
