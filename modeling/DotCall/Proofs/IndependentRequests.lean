import DotCall.Proofs.CarriedOutcomes
import DotCall.Proofs.ReachedStores
import DotCall.Proofs.TwinResolution

/-!
# Independent requests

Requests that are resolved each in a copy of the store come to the same outcomes as
requests that are resolved one after the other on the store itself.  What one
resolution leaves behind is quiet work, and on twins the next one takes the same course
(`resolve_alike`); the types of candidates are written in variables of the store from
before, so they are carried over as they are.  The caller's store gains types and
variables and stays as it was in all else.

The variables that resolutions have made are kept apart less well.  A variable of a copy
is taken over by its number when the caller's store knows that number, and by the time a
later outcome is carried over it knows those given out for earlier ones.
`outcomes_apart_iff` says exactly when no two outcomes come to share a new variable.
-/

namespace DotCall

open TypeStore Twin

namespace TypeStore

variable {α β : Type} {f : α → StateM TypeStore β}

theorem run_mapM_concat (as : List α) (a : α) (s : TypeStore) :
    ((as ++ [a]).mapM f).run s =
      let before := (as.mapM f).run s
      let last := (f a).run before.2
      (before.1 ++ [last.1], last.2) := by
  rw [List.mapM_append]
  rfl

end TypeStore

namespace Resolver

variable {r : Resolver} {s x : TypeStore} {requests : List Request}

/-- What the types of a request's candidates mean in its own copy, and what they mean when
it is resolved after other requests: the same, in variables of the caller. -/
def SameMeaning (s own x : TypeStore) (t u : TypeId) : Prop :=
  x.Has u ∧ x.meaning u = own.meaning t ∧
    ∀ id, .var id ∈ (own.meaning t).atoms → id < s.variableCount

/-- **One request, early or late.**  After any quiet work a call is resolved as it is on
the store from before. -/
theorem resolve_alike (hs : s.Ordered) (herror : s.Has .error) (hr : r.Within s)
    (hc : r.coercions.Uniform s) (hx : Quiet s x) {receiver : TypeId} (ht : s.Has receiver)
    (method : Symbol) (visible : List TraitId) :
    let own := (r.resolve receiver method visible).run s
    let later := (r.resolve receiver method visible).run x
    Quiet s own.2 ∧ Quiet x later.2 ∧
      Outcome.Agree (SameMeaning s own.2 later.2) own.1 later.1 := by
  have hrefl := Quiet.refl hs
  obtain ⟨v, -, hq, hq', hleft, hright, hagree⟩ := steady_resolve (hr.pairedIn hrefl hx)
    (hc hrefl hx) (pairs_self hrefl hx herror) (pairs_self hrefl hx ht) method visible _ (.refl _)
  have hfound : Outcome.Agree (SameMeaning s v.left v.right) _ _ :=
    Outcome.Agree.imp hagree fun t u hp => by
      have hpair : (Twin.start hq (hx.trans hq')).Pairs t u := hp
      obtain ⟨hknown, hmeaning⟩ := hpair.meaning
      exact ⟨hp.right, hmeaning.trans Tree.rename_id, hknown⟩
  rw [hleft] at hq hfound
  rw [hright] at hq' hfound
  exact ⟨hq, hq', hfound⟩

/-- One more request. -/
theorem resolveAll_concat (r : Resolver) (requests : List Request) (q : Request)
    (s : TypeStore) :
    (r.resolveAll (requests ++ [q])).run s =
      let before := (r.resolveAll requests).run s
      let own := r.resolveApart s q
      let last := (Outcome.carryFrom own.2 own.1).run before.2
      (before.1 ++ [last.1], last.2) := by
  have hrun : ∀ requests, (r.resolveAll requests).run s =
      ((requests.map (r.resolveApart s)).mapM fun (outcome, own) =>
        Outcome.carryFrom own outcome).run s := fun _ => rfl
  rw [hrun, hrun, List.map_append, List.map_singleton, run_mapM_concat]

/-- Outcomes of the batch and of the requests one after the other, whose candidates'
types mean the same. -/
def MeansSame (b x : TypeStore) (u v : TypeId) : Prop :=
  b.Has u ∧ x.Has v ∧ b.meaning u = x.meaning v

/-- Types that mean the same do so after more has been added to the one store and quiet
work was done in the other. -/
theorem MeansSame.last {b b' x x' : TypeStore} {u v : TypeId} (h : MeansSame b x u v)
    (hb : Gains b b') (hx : Quiet x x') : MeansSame b' x' u v :=
  ⟨hb.has h.1, hx.has h.2.1, by rw [hb.meaning_eq h.1, hx.meaning_eq h.2.1, h.2.2]⟩

/-- The batch and the requests one after the other, up to any request. -/
theorem resolveAll_alike (hs : s.Ordered) (herror : s.Has .error) (hr : r.Within s)
    (hc : r.coercions.Uniform s) (hq : ∀ q ∈ requests, s.Has q.receiver) :
    let batch := (r.resolveAll requests).run s
    let turns := (requests.mapM fun q => r.resolve q.receiver q.method q.visible).run s
    Gains s batch.2 ∧ Quiet s turns.2 ∧
      List.Forall₂ (Outcome.Agree (MeansSame batch.2 turns.2)) batch.1 turns.1 := by
  induction requests using List.reverseRecOn with
  | nil => exact ⟨.refl hs, .refl hs, .nil⟩
  | append_singleton requests q ih =>
      obtain ⟨hb, hx, hall⟩ := ih fun q' hq' => hq q' (List.mem_append_left _ hq')
      have hreceiver : s.Has q.receiver := hq q (by simp)
      obtain ⟨hown, hlater, hagree⟩ :=
        resolve_alike hs herror hr hc hx hreceiver q.method q.visible
      have hbrings := hb.brings hown ((r.resolve q.receiver q.method q.visible).run s).1
      rw [resolveAll_concat, run_mapM_concat]
      refine ⟨hb.trans hbrings.gains, hx.trans hlater, List.rel_append ?_ (.cons ?_ .nil)⟩
      · exact hall.imp fun _ _ ho => Outcome.Agree.imp ho fun _ _ h => h.last hbrings.gains hlater
      · apply Outcome.Agree.imp (hbrings.agree.comp hagree)
        intro u v h
        obtain ⟨t, ⟨hu, hsame⟩, hv, hmeaning, hknown⟩ := h
        refine ⟨hu, hv, (hsame fun id hid => ?_).trans hmeaning.symm⟩
        exact Nat.lt_of_lt_of_le (hknown id hid) hb.grows.count_le

/-- **Independent requests come to the same outcomes** as requests resolved one after the
other: of the same sort, about the same methods with the same adjustments, and with
candidates whose types mean the same.  All types and bindings of the caller stay as they
were.  The coercions have to be quiet and to go by how a type is written, as those of a
program do (`Declarations.RulesWithin.uniform`). -/
theorem resolveAll_agrees (hs : s.Ordered) (herror : s.Has .error) (hr : r.Within s)
    (hc : r.coercions.Uniform s) (hq : ∀ q ∈ requests, s.Has q.receiver) :
    let batch := (r.resolveAll requests).run s
    let turns := (requests.mapM fun q => r.resolve q.receiver q.method q.visible).run s
    batch.1.length = requests.length ∧
      List.Forall₂ (Outcome.Agree fun t u => batch.2.meaning t = turns.2.meaning u)
        batch.1 turns.1 ∧
      Grows s batch.2 ∧ ∀ id < s.variableCount, batch.2.binding id = s.binding id := by
  obtain ⟨hb, -, hall⟩ := resolveAll_alike hs herror hr hc hq
  refine ⟨?_, ?_, hb.grows, hb.binding⟩
  · rw [hall.length_eq, length_run_mapM]
  · exact hall.imp fun _ _ ho => Outcome.Agree.imp ho fun _ _ h => h.2.2

/-- A store with `Wrap<v>`, in which `v` is free, and with `Wrap<P>`. -/
def withWraps : TypeStore :=
  [.var, .param 0, .nominal ⟨1⟩ [⟨65⟩], .nominal ⟨1⟩ [⟨64⟩]].foldl
    (fun s (a : Action) => (a.perform.run s).2) new

/-- One method, which takes its receiver by a shared borrow. -/
def borrowing : MethodTable := [⟨.blank, some (.byBorrow .shared)⟩]

/-- The impl that gives the method to `Wrap<P>`. -/
def ofWraps : ImplDecl := ⟨none, [⟨2⟩], ⟨66⟩, borrowing, []⟩

/-- An impl of a trait for `bool`. -/
def forBool (t : TraitId) : ImplDecl := ⟨some t, [], .ofPrimitive .bool, [], []⟩

/-- The program with the method for `Wrap<P>` and twice for `bool`, from two traits. -/
def wraps : Declarations :=
  let d := (Declarations.empty.addTrait ⟨⟨3⟩, [], borrowing⟩).2.addTrait ⟨⟨4⟩, [], borrowing⟩
  let d := d.2.addImpl withWraps ofWraps
  ((d.2.addImpl withWraps (forBool ⟨0⟩)).2.addImpl withWraps (forBool ⟨1⟩)).2

/-- A call on `Wrap<v>`, and one on `bool` where both traits are visible. -/
def wrapCalls : List Request :=
  [⟨⟨67⟩, .blank, []⟩, ⟨.ofPrimitive .bool, .blank, [⟨0⟩, ⟨1⟩]⟩]

set_option maxRecDepth 4096 in
theorem wrapCalls_outcomes :
    (((wraps.resolver {} .empty).resolveAll wrapCalls).run withWraps).1 =
      [.ok ⟨⟨.impl ⟨0⟩, .inherent, .blank, .byBorrow .shared, ⟨66⟩, 1, ⟨68⟩⟩, 0,
          .byBorrow .shared, false, false⟩,
        .error (.ambiguous .blank (.ofPrimitive .bool)
          [⟨.impl ⟨1⟩, .extension ⟨0⟩, .blank, .byBorrow .shared, .ofPrimitive .bool, 0, ⟨69⟩⟩,
            ⟨.impl ⟨2⟩, .extension ⟨1⟩, .blank, .byBorrow .shared, .ofPrimitive .bool, 0,
              ⟨69⟩⟩])] := by
  cbv

/-- The first call succeeds and the second is ambiguous, in a batch as well as in turns. -/
theorem resolveAll_agrees_wraps :
    let r := wraps.resolver {} .empty
    let batch := (r.resolveAll wrapCalls).run withWraps
    let turns := (wrapCalls.mapM fun q => r.resolve q.receiver q.method q.visible).run withWraps
    (∃ choice candidates, batch.1 =
        [.ok choice, .error (.ambiguous .blank (.ofPrimitive .bool) candidates)]) ∧
      List.Forall₂ (Outcome.Agree fun t u => batch.2.meaning t = turns.2.meaning u)
        batch.1 turns.1 ∧
      batch.2.binding 0 = withWraps.binding 0 := by
  intro r batch turns
  have hreached : Reached [] withWraps := Reached.new.acts (by cbv)
  have hvalues : (withWraps.size, withWraps.variableCount) = (68, 1) := by cbv
  obtain ⟨hsize, hcount⟩ := Prod.mk.inj hvalues
  have hhas : ∀ {t : TypeId}, t.index < 68 → withWraps.Has t := fun ht => by
    rwa [TypeStore.Has, hsize]
  have hbool : withWraps.Has (.ofPrimitive .bool) := hhas (by decide)
  have hwithin : r.Within withWraps := by
    intro id decl hdecl
    have hmem : decl ∈ #[ofWraps, forBool ⟨0⟩, forBool ⟨1⟩] := Array.mem_of_getElem? hdecl
    obtain rfl | rfl | rfl : decl = ofWraps ∨ decl = forBool ⟨0⟩ ∨ decl = forBool ⟨1⟩ := by
      simpa using hmem
    · exact ⟨hhas (by decide), by simp [ofWraps]⟩
    · exact ⟨hbool, by simp [forBool]⟩
    · exact ⟨hbool, by simp [forBool]⟩
  have hrules : wraps.RulesWithin withWraps :=
    ⟨fun rule hmem => absurd hmem List.not_mem_nil, fun rule hmem => absurd hmem List.not_mem_nil⟩
  have hreceivers : ∀ q ∈ wrapCalls, withWraps.Has q.receiver := by
    simp only [wrapCalls, List.forall_mem_cons]
    exact ⟨hhas (by decide), hbool, by simp⟩
  obtain ⟨-, hagree, -, hbinding⟩ := resolveAll_agrees hreached.sound.ordered (hhas (by decide))
    hwithin hrules.uniform hreceivers
  exact ⟨⟨_, _, wrapCalls_outcomes⟩, hagree, hbinding 0 (by omega)⟩

/-- In the store `b` the outcomes share no variable but those of the caller's store. -/
def Apart (s b : TypeStore) (o o' : Outcome) : Prop :=
  ∀ id, s.variableCount ≤ id → Outcome.Mentions b o id → ¬ Outcome.Mentions b o' id

/-- What an outcome mentions does not change with what is added behind it. -/
theorem mentions_gains {b b' : TypeStore} (h : Gains b b') {o : Outcome}
    (ho : ∀ t ∈ Outcome.types o, b.Has t) {id : Nat} :
    Outcome.Mentions b' o id ↔ Outcome.Mentions b o id := by
  unfold Outcome.Mentions
  rw [List.map_congr_left fun t ht => h.meaning_eq (ho t ht)]

/-- What a batch has made of the store `s`: it has gained the types of the outcomes, and
every variable that it made occurs in one of them. -/
structure Batch (s : TypeStore) (outcomes : List Outcome) (b : TypeStore) : Prop where
  gains : Gains s b
  has : ∀ o ∈ outcomes, ∀ t ∈ Outcome.types o, b.Has t
  made : ∀ id, s.variableCount ≤ id → id < b.variableCount →
    ∃ o ∈ outcomes, Outcome.Mentions b o id

section Batch

variable {outcomes : List Outcome} {b b' own : TypeStore} {o o' : Outcome}

/-- Before the first request there is no outcome and nothing to relate. -/
theorem Batch.start (hs : s.Ordered) : Batch s [] s where
  gains := .refl hs
  has _ h := absurd h List.not_mem_nil
  made _ hge hlt := absurd hlt (Nat.not_lt_of_le hge)

/-- One more request extends the batch by what it brings. -/
theorem Batch.concat (h : Batch s outcomes b) (hlast : Brings own o b b' o') :
    Batch s (outcomes ++ [o']) b' where
  gains := h.gains.trans hlast.gains
  has p hp := by
    rcases List.mem_append.mp hp with hp | hp
    · exact fun t ht => hlast.gains.has (h.has p hp t ht)
    · obtain rfl := List.mem_singleton.mp hp
      exact hlast.has
  made id hge hlt := by
    by_cases hid : id < b.variableCount
    · obtain ⟨p, hp, hmentions⟩ := h.made id hge hid
      exact ⟨p, List.mem_append_left _ hp, (mentions_gains hlast.gains (h.has p hp)).mpr hmentions⟩
    · exact ⟨o', by simp, hlast.made (by omega) hlt⟩

/-- An outcome mentions only variables that the store has. -/
theorem Batch.lt_of_mentions (h : Batch s outcomes b) {id : Nat} (hid : Outcome.Mentions b o id) :
    id < b.variableCount := by
  obtain ⟨tree, htree, hid⟩ := hid
  obtain ⟨t, -, rfl⟩ := List.mem_map.mp htree
  obtain ⟨u, hu⟩ := h.gains.finish.node_of_mem_meaning hid
  exact h.gains.finish.wellFormed.var_lt hu

/-- One more outcome is apart from those before exactly when each of its variables is the
caller's or has a number that the store does not know yet. -/
theorem Batch.apart_iff (h : Batch s outcomes b) (hlast : Brings own o b b' o') :
    (∀ p ∈ outcomes, Apart s b' p o') ↔
      ∀ id, Outcome.Mentions own o id → id < s.variableCount ∨ b.variableCount ≤ id := by
  constructor
  · intro hapart id hid
    by_contra hknown
    -- the number was given out for an outcome before, which mentions it
    obtain ⟨p, hp, hmentions⟩ := h.made id (by omega) (by omega)
    have hshared := (mentions_gains hlast.gains (h.has p hp)).mpr hmentions
    exact hapart p hp id (by omega) hshared (hlast.kept (by omega) hid)
  · intro hclear p hp id hge hmentions hmentions'
    rw [mentions_gains hlast.gains (h.has p hp)] at hmentions
    have hlt := h.lt_of_mentions hmentions
    rcases hlast.origin hmentions' with hnew | hid
    · omega
    · have := hclear id hid
      omega

/-- Outcomes stay apart from a further one when it mentions only what the caller had or
what is new. -/
theorem Batch.pairwise_concat (h : Batch s outcomes b) (hlast : Brings own o b b' o') :
    (outcomes ++ [o']).Pairwise (Apart s b') ↔ outcomes.Pairwise (Apart s b) ∧
      ∀ id, Outcome.Mentions own o id → id < s.variableCount ∨ b.variableCount ≤ id := by
  have hold : outcomes.Pairwise (Apart s b') ↔ outcomes.Pairwise (Apart s b) := by
    apply List.Pairwise.iff_of_mem
    intro p p' hp hp'
    simp only [Apart, mentions_gains hlast.gains (h.has p hp),
      mentions_gains hlast.gains (h.has p' hp')]
  rw [List.pairwise_append, hold, ← h.apart_iff hlast]
  simp

end Batch

/-- Each variable that an outcome mentions in its own copy is one of the caller's or has a
number beyond those given out for the outcomes before it. -/
def Clear (r : Resolver) (s : TypeStore) (requests : List Request) : Prop :=
  ∀ i q, requests[i]? = some q → ∀ id,
    Outcome.Mentions (r.resolveApart s q).2 (r.resolveApart s q).1 id →
      id < s.variableCount ∨ ((r.resolveAll (requests.take i)).run s).2.variableCount ≤ id

theorem clear_concat {q : Request} : r.Clear s (requests ++ [q]) ↔ r.Clear s requests ∧
    ∀ id, Outcome.Mentions (r.resolveApart s q).2 (r.resolveApart s q).1 id →
      id < s.variableCount ∨ ((r.resolveAll requests).run s).2.variableCount ≤ id := by
  constructor
  · intro h
    constructor
    · intro i p hp
      have hlt : i < requests.length := (List.getElem?_eq_some_iff.mp hp).1
      have hlater := h i p (by rwa [List.getElem?_append_left hlt])
      rwa [List.take_append_of_le_length (Nat.le_of_lt hlt)] at hlater
    · have hlast := h requests.length q (by simp)
      rwa [List.take_left] at hlast
  · intro h i p hp
    by_cases hlt : i < requests.length
    · rw [List.getElem?_append_left hlt] at hp
      rw [List.take_append_of_le_length (Nat.le_of_lt hlt)]
      exact h.1 i p hp
    · have hi : i = requests.length := by
        have := (List.getElem?_eq_some_iff.mp hp).1
        simp only [List.length_append, List.length_singleton] at this
        omega
      subst hi
      obtain rfl : q = p := by simpa using hp
      rw [List.take_left]
      exact h.2

/-- What the copy of a request became, and its outcome carried into the store that a batch
has made. -/
theorem Batch.brings {outcomes : List Outcome} {b : TypeStore} (h : Batch s outcomes b)
    (herror : s.Has .error) (hr : r.Within s)
    (hc : r.coercions.Uniform s) {q : Request} (hq : s.Has q.receiver) :
    let own := r.resolveApart s q
    let last := (Outcome.carryFrom own.2 own.1).run b
    Brings own.2 own.1 b last.2 last.1 := by
  have hs := h.gains.start
  obtain ⟨hown, -, -⟩ := resolve_alike hs herror hr hc (.refl hs) hq q.method q.visible
  exact h.gains.brings hown _

/-- **The outcomes of all requests**, by induction on the requests from the last one. -/
theorem batch_resolveAll (hs : s.Ordered) (herror : s.Has .error) (hr : r.Within s)
    (hc : r.coercions.Uniform s) (hq : ∀ q ∈ requests, s.Has q.receiver) :
    Batch s ((r.resolveAll requests).run s).1 ((r.resolveAll requests).run s).2 := by
  induction requests using List.reverseRecOn with
  | nil => exact .start hs
  | append_singleton requests q ih =>
      have hbatch := ih fun q' hq' => hq q' (List.mem_append_left _ hq')
      rw [resolveAll_concat]
      exact hbatch.concat (hbatch.brings herror hr hc (hq q (by simp)))

/-- **When outcomes share no new variables.**  No two outcomes of a batch come to share a
variable that the caller did not have, exactly when the requests are clear of each
other. -/
theorem outcomes_apart_iff (hs : s.Ordered) (herror : s.Has .error) (hr : r.Within s)
    (hc : r.coercions.Uniform s) (hq : ∀ q ∈ requests, s.Has q.receiver) :
    let batch := (r.resolveAll requests).run s
    batch.1.Pairwise (Apart s batch.2) ↔ r.Clear s requests := by
  induction requests using List.reverseRecOn with
  | nil => exact iff_of_true .nil fun i q h => by simp at h
  | append_singleton requests q ih =>
      have hfirst := fun q' hq' => hq q' (List.mem_append_left [q] hq')
      have hbatch := batch_resolveAll hs herror hr hc hfirst
      have hbrings := hbatch.brings herror hr hc (hq q (by simp))
      rw [resolveAll_concat, clear_concat]
      exact (hbatch.pairwise_concat hbrings).trans (and_congr_left' (ih hfirst))

/-- A store with the type of a parameter, and its handle. -/
def withParam : TypeId × TypeStore := (intern (.atom (.param 0))).run new

/-- A program with one rule: `i32` dereferences to a parameter that its source leaves
open. -/
def openEnded : Declarations :=
  { Declarations.empty with derefs := [⟨1, .ofPrimitive .i32, withParam.1⟩] }

/-- A call on a primitive type. -/
def callOn (p : Primitive) : Request := ⟨.ofPrimitive p, .blank, []⟩

theorem withParam_gains : Gains new withParam.2 ∧ withParam.2.Has withParam.1 := by
  have hn : new.Admits (.atom (.param 0)) := .atom (by simp) (by simp)
  obtain ⟨hg, -, hparam, -⟩ := new_sound.ordered.intern_gains hn
  exact ⟨hg, hparam⟩

/-- Two calls, of which the one on `i32` makes a variable and the one on `bool` does not. -/
theorem outcomes_apart_primitives :
    let batch := ((openEnded.resolver {} .empty).resolveAll [callOn .i32, callOn .bool]).run
      withParam.2
    batch.1.Pairwise (Apart withParam.2 batch.2) := by
  obtain ⟨hg, hparam⟩ := withParam_gains
  have hwithin : (openEnded.resolver {} .empty).Within withParam.2 := by
    intro id decl hdecl
    have hmem : decl ∈ #[] := Array.mem_of_getElem? hdecl
    simp at hmem
  have hrules : openEnded.RulesWithin withParam.2 := by
    constructor
    · intro rule hrule
      obtain rfl := List.mem_singleton.mp hrule
      exact ⟨hg.has (by decide), hparam⟩
    · exact fun rule hrule => absurd hrule List.not_mem_nil
  have hreceivers : ∀ q ∈ [callOn .i32, callOn .bool], withParam.2.Has q.receiver := by
    simp only [List.forall_mem_cons]
    exact ⟨hg.has (by decide), hg.has (by decide), by simp⟩
  have herror : withParam.2.Has .error := hg.has (by decide)
  apply (outcomes_apart_iff hg.finish herror hwithin hrules.uniform hreceivers).mpr
  have houtcome : ((openEnded.resolver {} .empty).resolveApart withParam.2 (callOn .bool)).1 =
      .error (.noMethod .blank (.ofPrimitive .bool) [.ofPrimitive .bool] [] []) := by cbv
  have hmeaning : ((openEnded.resolver {} .empty).resolveApart withParam.2 (callOn .bool)).2.meaning
      (.ofPrimitive .bool) = .atom (.prim .bool) := by cbv
  rw [show [callOn .i32, callOn .bool] = ([] ++ [callOn .i32]) ++ [callOn .bool] from rfl,
    clear_concat, clear_concat]
  refine ⟨⟨fun i q hq => by simp at hq, fun id _ => Nat.lt_or_ge id _⟩, fun id hid => ?_⟩
  rw [Outcome.Mentions, houtcome] at hid
  simp [Outcome.types, Failure.types, hmeaning, Tree.Mentioned] at hid

/-- Two calls on `i32` each make a variable and come to share it: both have tried the
type with the handle 65, which is the variable 0, where there was none before. -/
theorem outcomes_share_variable :
    let batch := ((openEnded.resolver {} .empty).resolveAll [callOn .i32, callOn .i32]).run
      withParam.2
    ¬ batch.1.Pairwise (Apart withParam.2 batch.2) := by
  have hvalues : (withParam.2.variableCount,
      (((openEnded.resolver {} .empty).resolveAll [callOn .i32, callOn .i32]).run withParam.2).1,
      (((openEnded.resolver {} .empty).resolveAll [callOn .i32, callOn .i32]).run
        withParam.2).2.meaning ⟨65⟩) =
    (0, List.replicate 2 (.error (.noMethod .blank (.ofPrimitive .i32) [.ofPrimitive .i32, ⟨65⟩]
      [] [])), .atom (.var 0)) := by cbv
  simp only [Prod.mk.injEq] at hvalues
  obtain ⟨hcount, houtcomes, hmeaning⟩ := hvalues
  generalize ((openEnded.resolver {} .empty).resolveAll [callOn .i32, callOn .i32]).run
    withParam.2 = batch at houtcomes hmeaning ⊢
  intro _ hapart
  rw [houtcomes] at hapart
  have hmentions : Outcome.Mentions batch.2
      (.error (.noMethod .blank (.ofPrimitive .i32) [.ofPrimitive .i32, ⟨65⟩] [] [])) 0 :=
    ⟨.atom (.var 0), by simp [Outcome.types, Failure.types, hmeaning], by simp⟩
  exact (List.pairwise_cons.mp hapart).1 _ (by simp) 0 (by omega) hmentions hmentions

end Resolver

end DotCall
