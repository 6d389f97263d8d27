import DotCall.Call.DerefChain
import DotCall.Proofs.CoercionTargets

/-!
# The steps of a receiver

The chain of a receiver starts with what the receiver means, each type is what
the one before it dereferences to, and the last one dereferences to nothing.  All
of them are expanded.  After the last a step may follow that it unsizes to.
Finding the steps is quiet.
-/

namespace DotCall

open TypeStore DotCall.Tree

/-- Expanding gives a type that is expanded and means the same. -/
theorem TypeStore.Ordered.expand_expanded {s : TypeStore} {t : TypeId} (h : s.Ordered)
    (ht : s.Has t) :
    let r := (expand t).run s
    Quiet s r.2 ∧ r.2.Expanded r.1 ∧ r.2.meaning r.1 = s.meaning t := by
  intro r
  obtain ⟨hq, hhas, hwritten⟩ := h.expand_run ht
  have hmeaning : r.2.meaning r.1 = r.2.written r.1 := by
    refine hq.finish.meaning_eq_written fun id hid u hb => ?_
    obtain ⟨v, hv, -⟩ := hq.keeps.linked_cases hb
    exact h.not_linked_of_mem_meaning (hwritten ▸ hid) v hv
  exact ⟨hq, ⟨hhas, hmeaning.symm⟩, hmeaning.trans hwritten⟩

/-- Each type is expanded and is what the one before dereferences to; the last one
dereferences to nothing. -/
inductive Chain (d : Declarations) (s y : TypeStore) : List TypeId → Prop where
  | last {t : TypeId} (expanded : y.Expanded t) (stops : d.DerefsTo s (y.meaning t) none) :
      Chain d s y [t]
  | next {t u : TypeId} {rest : List TypeId} (expanded : y.Expanded t)
      (leads : d.DerefsTo s (y.meaning t) (some (y.meaning u))) (tail : Chain d s y (u :: rest)) :
      Chain d s y (t :: u :: rest)

namespace Chain

variable {d : Declarations} {s y z : TypeStore} {chain : List TypeId}

/-- Every type of a chain is expanded. -/
theorem all_expanded (h : Chain d s y chain) : ∀ t ∈ chain, y.Expanded t := by
  induction h with
  | last expanded _ => simpa using expanded
  | next expanded _ _ ih =>
      intro t ht
      rcases List.mem_cons.mp ht with rfl | ht
      · exact expanded
      · exact ih t ht

/-- What is known of a chain lasts. -/
theorem quiet (h : Chain d s y chain) (hq : Quiet y z) : Chain d s z chain := by
  induction h with
  | last expanded stops =>
      exact .last (expanded.quiet hq) (hq.meaning_eq expanded.1 ▸ stops)
  | next expanded leads tail ih =>
      have hnext := tail.all_expanded _ List.mem_cons_self
      refine .next (expanded.quiet hq) ?_ ih
      rw [hq.meaning_eq expanded.1, hq.meaning_eq hnext.1]
      exact leads

/-- A chain ends at a type that dereferences to nothing. -/
theorem exists_last (h : Chain d s y chain) :
    ∃ before last, chain = before ++ [last] ∧ d.DerefsTo s (y.meaning last) none := by
  induction h with
  | @last t _ stops => exact ⟨[], t, rfl, stops⟩
  | @next t _ _ _ _ _ ih =>
      obtain ⟨before, last, hchain, hlast⟩ := ih
      exact ⟨t :: before, last, by rw [hchain, List.cons_append], hlast⟩

end Chain

namespace Resolver

variable {d : Declarations} (settings : Settings) (bounds : Bounds) {s x : TypeStore}
  (receiver : TypeId) {current : TypeId}

/-- **The chain of dereferences** is found quietly. -/
theorem derefChain_run (hs : s.Sound) (hd : d.Closed s) (hx : Quiet s x)
    (hcurrent : x.Expanded current) (room : Nat) (seen : List TypeId) :
    let r := ((d.resolver settings bounds).derefChain receiver room seen current).run x
    Quiet x r.2 ∧ ∀ chain, r.1 = .ok chain →
      Chain d s r.2 chain ∧ ∃ rest, chain = current :: rest := by
  induction room generalizing x seen current with
  | zero => exact ⟨.refl hx.finish, fun _ h => by cases h⟩
  | succ room ih =>
      intro r
      by_cases hseen : current ∈ seen
      · have hrun : r = (.error (.endlessDeref receiver current true), x) := by
          simp only [r, derefChain, hseen, if_true, run_pure]
        rw [hrun]
        exact ⟨.refl hx.finish, fun _ h => by cases h⟩
      obtain ⟨hq, hderefs, hfollows⟩ := Declarations.deref?_run hs hd hx hcurrent.1
        (.inr hcurrent.plain)
      obtain ⟨y, hy⟩ : ∃ y, (d.deref? current).run x = y := ⟨_, rfl⟩
      rw [hy] at hq hderefs hfollows
      have hcoerce : ((d.resolver settings bounds).coercions.deref? current).run x = y := hy
      cases hnext : y.1 with
      | none =>
          have hrun : r = (.ok [current], y.2) := by
            simp only [r, derefChain, hseen, if_false, run_bind, hcoerce, hnext, run_pure]
          rw [hrun]
          refine ⟨hq, fun chain hchain => ?_⟩
          cases hchain
          rw [hnext] at hderefs
          exact ⟨.last (hcurrent.quiet hq) (hq.meaning_eq hcurrent.1 ▸ hderefs), [], rfl⟩
      | some next =>
          have hfollow := hfollows next hnext
          obtain ⟨hq₁, hexpanded, hmeaning⟩ := hq.finish.expand_expanded hfollow.has
          obtain ⟨e, he⟩ : ∃ e, (expand next).run y.2 = e := ⟨_, rfl⟩
          rw [he] at hq₁ hexpanded hmeaning
          obtain ⟨hq₂, hrest⟩ := ih (hx.trans (hq.trans hq₁)) hexpanded (current :: seen)
          obtain ⟨z, hz⟩ : ∃ z, ((d.resolver settings bounds).derefChain receiver room
            (current :: seen) e.1).run e.2 = z := ⟨_, rfl⟩
          rw [hz] at hq₂ hrest
          cases hanswer : z.1 with
          | error failure =>
              have hrun : r = (.error failure, z.2) := by
                simp only [r, derefChain, hseen, if_false, run_bind, hcoerce, hnext, he, hz, hanswer,
                  run_pure]
              rw [hrun]
              exact ⟨hq.trans (hq₁.trans hq₂), fun _ h => by cases h⟩
          | ok rest =>
              have hrun : r = (.ok (current :: rest), z.2) := by
                simp only [r, derefChain, hseen, if_false, run_bind, hcoerce, hnext, he, hz, hanswer,
                  run_pure]
              rw [hrun]
              refine ⟨hq.trans (hq₁.trans hq₂), fun chain hchain => ?_⟩
              cases hchain
              obtain ⟨hchain, rest', rfl⟩ := hrest rest hanswer
              refine ⟨.next (hcurrent.quiet (hq.trans (hq₁.trans hq₂))) ?_ hchain, _, rfl⟩
              rw [(hq.trans (hq₁.trans hq₂)).meaning_eq hcurrent.1, hq₂.meaning_eq hexpanded.1,
                hmeaning]
              rwa [hnext] at hderefs

end Resolver

/-- The chain from `first` on, and what its last type unsizes to. -/
structure Stepping (d : Declarations) (s y : TypeStore) (first : TypeId) (chain : List TypeId)
    (last? : Option TypeId) : Prop where
  links : Chain d s y chain
  starts : ∃ rest, chain = first :: rest
  unsizes : ∀ last, chain.getLast? = some last →
    d.UnsizesTo s (y.meaning last) (last?.map y.meaning)
  expanded : ∀ u, last? = some u → y.Expanded u

/-- The steps that a chain and an unsized type make. -/
def Stepping.steps (chain : List TypeId) (last? : Option TypeId) : List Step :=
  chain.map (⟨·, false⟩) ++ last?.toList.map (⟨·, true⟩)

namespace Stepping

variable {d : Declarations} {s y z : TypeStore} {first : TypeId} {chain : List TypeId}
  {last? : Option TypeId}

/-- So is every step, the unsized one included. -/
theorem all_expanded (h : Stepping d s y first chain last?) :
    ∀ step ∈ steps chain last?, y.Expanded step.ty := by
  intro step hstep
  rcases List.mem_append.mp hstep with hstep | hstep
  · obtain ⟨t, ht, rfl⟩ := List.mem_map.mp hstep
    exact h.links.all_expanded t ht
  · obtain ⟨u, hu, rfl⟩ := List.mem_map.mp hstep
    exact h.expanded u (by simpa using hu)

/-- The last type of the chain is the one that is unsized. -/
theorem exists_last (h : Stepping d s y first chain last?) :
    ∃ last, chain.getLast? = some last ∧ last ∈ chain ∧
      d.UnsizesTo s (y.meaning last) (last?.map y.meaning) := by
  obtain ⟨before, last, hsplit, -⟩ := h.links.exists_last
  have hlast : chain.getLast? = some last := by simp [hsplit]
  exact ⟨last, hlast, List.mem_of_getLast? hlast, h.unsizes last hlast⟩

/-- What is known of the steps lasts. -/
theorem quiet (h : Stepping d s y first chain last?) (hq : Quiet y z) :
    Stepping d s z first chain last? where
  links := h.links.quiet hq
  starts := h.starts
  unsizes last hlast := by
    have hexpanded := h.links.all_expanded last (List.mem_of_getLast? hlast)
    have hmap : last?.map z.meaning = last?.map y.meaning := by
      cases last? with
      | none => rfl
      | some u => exact congrArg some (hq.meaning_eq (h.expanded u rfl).1)
    rw [hq.meaning_eq hexpanded.1, hmap]
    exact h.unsizes last hlast
  expanded u hu := (h.expanded u hu).quiet hq

end Stepping

namespace Resolver

variable {d : Declarations} (settings : Settings) (bounds : Bounds) {s x : TypeStore}
  {receiver first : TypeId}

/-- The last type of a chain is unsized as the declared conversions say, quietly. -/
theorem unsizeLast?_run (hs : s.Sound) (hd : d.Closed s) (hx : Quiet s x) {chain : List TypeId}
    (hchain : Chain d s x chain) (hfirst : ∃ rest, chain = first :: rest) :
    let r := ((d.resolver settings bounds).unsizeLast? chain).run x
    Quiet x r.2 ∧ Stepping d s r.2 first chain r.1 := by
  intro r
  obtain ⟨before, last, hsplit, -⟩ := hchain.exists_last
  have hget : chain.getLast? = some last := by simp [hsplit]
  have hlast : x.Expanded last := hchain.all_expanded last (by simp [hsplit])
  obtain ⟨hq, hunsizes, hfollows⟩ := Declarations.unsize?_run hs hd hx hlast.1 (.inr hlast.plain)
  obtain ⟨y, hy⟩ : ∃ y, (d.unsize? last).run x = y := ⟨_, rfl⟩
  rw [hy] at hq hunsizes hfollows
  have hcoerce : ((d.resolver settings bounds).coercions.unsize? last).run x = y := hy
  cases hresult : y.1 with
  | none =>
      have hrun : r = (none, y.2) := by
        simp only [r, unsizeLast?, hget, run_bind, hcoerce, hresult, run_pure]
      rw [hrun]
      rw [hresult, ← hq.meaning_eq hlast.1] at hunsizes
      refine ⟨hq, hchain.quiet hq, hfirst, fun last' hlast' => ?_, fun _ h => by cases h⟩
      rw [hget] at hlast'
      cases hlast'
      exact hunsizes
  | some result =>
      have hfollow := hfollows result hresult
      obtain ⟨hq₁, hexpanded, hmeaning⟩ := hq.finish.expand_expanded hfollow.has
      obtain ⟨e, he⟩ : ∃ e, (expand result).run y.2 = e := ⟨_, rfl⟩
      rw [he] at hq₁ hexpanded hmeaning
      have hrun : r = (some e.1, e.2) := by
        simp only [r, unsizeLast?, hget, run_bind, hcoerce, hresult, he, run_pure]
      rw [hrun]
      have hq₂ := hq.trans hq₁
      rw [hresult, Option.map_some, ← hmeaning, ← hq₂.meaning_eq hlast.1] at hunsizes
      refine ⟨hq₂, hchain.quiet hq₂, hfirst, fun last' hlast' => ?_, fun u hu => ?_⟩
      · rw [hget] at hlast'
        cases hlast'
        exact hunsizes
      · cases hu
        exact hexpanded

/-- **The steps of a receiver** are found quietly. -/
theorem stepsOf_run (hs : s.Sound) (hd : d.Closed s) (hx : Quiet s x) (ht : x.Has receiver) :
    let r := ((d.resolver settings bounds).stepsOf receiver).run x
    Quiet x r.2 ∧ ∀ steps, r.1 = .ok steps → ∃ first chain last?,
      steps = Stepping.steps chain last? ∧ Stepping d s r.2 first chain last? ∧
        r.2.meaning first = x.meaning receiver := by
  intro r
  obtain ⟨hq, hexpanded, hmeaning⟩ := hx.finish.expand_expanded ht
  obtain ⟨e, he⟩ : ∃ e, (expand receiver).run x = e := ⟨_, rfl⟩
  rw [he] at hq hexpanded hmeaning
  obtain ⟨hq₁, hchains⟩ := derefChain_run settings bounds receiver hs hd (hx.trans hq) hexpanded (settings.maxDerefs + 1) []
  obtain ⟨z, hz⟩ : ∃ z, ((d.resolver settings bounds).derefChain receiver
    (settings.maxDerefs + 1) [] e.1).run e.2 = z := ⟨_, rfl⟩
  rw [hz] at hq₁ hchains
  have hlimit : (d.resolver settings bounds).settings.maxDerefs = settings.maxDerefs := rfl
  cases hanswer : z.1 with
  | error failure =>
      have hrun : r = (.error failure, z.2) := by
        simp only [r, stepsOf, run_bind, he, hlimit, hz, hanswer, run_pure]
      rw [hrun]
      exact ⟨hq.trans hq₁, fun _ h => by cases h⟩
  | ok chain =>
      obtain ⟨hchain, hfirst⟩ := hchains chain hanswer
      obtain ⟨hq₂, hstepping⟩ := unsizeLast?_run settings bounds hs hd
        (hx.trans (hq.trans hq₁)) hchain hfirst
      obtain ⟨u, hu⟩ : ∃ u, ((d.resolver settings bounds).unsizeLast? chain).run z.2 = u := ⟨_, rfl⟩
      rw [hu] at hq₂ hstepping
      have hrun : r = (.ok (Stepping.steps chain u.1), u.2) := by
        simp only [r, stepsOf, run_bind, he, hlimit, hz, hanswer, hu, run_pure, Stepping.steps]
      rw [hrun]
      refine ⟨hq.trans (hq₁.trans hq₂), fun steps hsteps => ?_⟩
      cases hsteps
      refine ⟨e.1, chain, u.1, rfl, hstepping, ?_⟩
      rw [(hq₁.trans hq₂).meaning_eq hexpanded.1, hmeaning]

end Resolver

end DotCall
