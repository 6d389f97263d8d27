import DotCall.Diagnostic.Outbox
import Mathlib.Data.List.Chain

/-!
# What an outbox holds

An outbox is offered errors one after the other and emptied from time to time.  In
between it holds exactly the errors that it accepted since it was last emptied: it counts
them, never holds more than it has room for, and remembers the last of them (`Holds`).
One step keeps this, and so does every run (`Run.holds`).

A repeat is told by a digest of the beginning of its message, and what is said here holds
for every digest.  With `id` it is said of `offer` and `emit`, which compare beginnings as
they are.
-/

namespace DotCall

section Keys

variable {α : Type} (key : α → Nat) (xs : List α)

/-- The list by ascending keys; equal keys keep their order. -/
def sortedBy : List α := xs.mergeSort fun a b => decide (key a ≤ key b)

/-- Sorting by a key loses nothing and repeats nothing. -/
theorem sortedBy_perm : (sortedBy key xs).Perm xs := List.mergeSort_perm xs _

/-- Sorted by a key, the keys never decrease. -/
theorem pairwise_sortedBy : (sortedBy key xs).Pairwise fun a b => key a ≤ key b := by
  have hsorted : (sortedBy key xs).Pairwise fun a b => decide (key a ≤ key b) = true :=
    List.pairwise_mergeSort
      (fun a b c hab hbc => by simp only [decide_eq_true_eq] at *; omega)
      (fun a b => by simp only [Bool.or_eq_true, decide_eq_true_eq]; omega) xs
  exact hsorted.imp fun h => of_decide_eq_true h

/-- What is in order already stays as it is. -/
theorem sortedBy_of_pairwise {xs : List α} (h : xs.Pairwise fun a b => key a ≤ key b) :
    sortedBy key xs = xs :=
  List.mergeSort_of_pairwise (h.imp fun hab => decide_eq_true hab)

/-- **Stability.**  The elements with one key stand in the order in which they were. -/
theorem filter_sortedBy (k : Nat) :
    (sortedBy key xs).filter (fun a => key a = k) = xs.filter fun a => key a = k := by
  have heq : (xs.filter fun a => key a = k).Pairwise fun a b => decide (key a ≤ key b) = true := by
    refine List.pairwise_of_forall_mem_list fun a ha b hb => ?_
    have hka : key a = k := by simpa using List.of_mem_filter ha
    have hkb : key b = k := by simpa using List.of_mem_filter hb
    simp [hka, hkb]
  have hsub : (xs.filter fun a => key a = k).Sublist (sortedBy key xs) :=
    List.sublist_mergeSort
      (fun a b c hab hbc => by simp only [decide_eq_true_eq] at *; omega)
      (fun a b => by simp only [Bool.or_eq_true, decide_eq_true_eq]; omega)
      heq List.filter_sublist
  have hkept := hsub.filter fun a => key a = k
  rw [List.filter_filter] at hkept
  have hlen : (xs.filter fun a => key a = k).length =
      ((sortedBy key xs).filter fun a => key a = k).length :=
    ((sortedBy_perm key xs).filter _).length_eq.symm
  simp only [Bool.and_self] at hkept
  exact (hkept.eq_of_length hlen).symm

end Keys

namespace Outbox

variable {κ : Type}

section Digests

variable [DecidableEq κ]

section Offer

variable {digest : String → κ} {o : Outbox} {d : Diagnostic}

/-- **When an error is dropped.**  The outbox is full, or the error is a consequence, or it
cannot be told from the last accepted one. -/
theorem rejectsBy_iff : o.rejectsBy digest d = true ↔
    (0 < o.rules.capacity ∧ o.rules.capacity ≤ o.count) ∨
      (o.rules.dropConsequences = true ∧ d.isConsequence = true) ∨
      (o.rules.dropRepeats = true ∧ o.memory digest = some (d.imprint digest)) := by
  simp [rejectsBy, isFull, or_assoc]

/-- An offer is turned down and changes nothing, or it is taken and the error comes last. -/
theorem offerBy_cases (digest : String → κ) (o : Outbox) (d : Diagnostic) :
    (o.rejectsBy digest d = true ∧ o.offerBy digest d = (false, o)) ∨
      o.rejectsBy digest d = false ∧ o.offerBy digest d = (true, { o with
        pending := o.pending ++ [d]
        count := o.count + 1
        last? := some d.fingerprint }) := by
  cases h : o.rejectsBy digest d with
  | true => exact .inl ⟨rfl, by simp [offerBy, h]⟩
  | false => exact .inr ⟨rfl, by simp [offerBy, h]⟩

/-- An offer is answered with no exactly when it is rejected. -/
theorem offerBy_eq_false : (o.offerBy digest d).1 = false ↔ o.rejectsBy digest d = true := by
  rcases offerBy_cases digest o d with ⟨h, heq⟩ | ⟨h, heq⟩
  · simp [h, heq]
  · simp [h, heq]

/-- An offer that is answered with no leaves the outbox as it is. -/
theorem offerBy_of_false (h : (o.offerBy digest d).1 = false) : (o.offerBy digest d).2 = o := by
  rcases offerBy_cases digest o d with ⟨-, heq⟩ | ⟨-, heq⟩
  · rw [heq]
  · simp [heq] at h

end Offer

end Digests

/-- Where each position is at most the next, it is at most every later one. -/
theorem pairwise_of_inOrder {o : Outbox} (h : o.inOrder = true) :
    o.pending.Pairwise fun a b => a.position ≤ b.position := by
  have hchain : ∀ ds : List Diagnostic,
      (ds.zip ds.tail).all (fun p => decide (p.1.position ≤ p.2.position)) = true →
        ds.IsChain fun a b => a.position ≤ b.position := by
    intro ds
    induction ds with
    | nil => exact fun _ => .nil
    | cons a ds ih =>
        cases ds with
        | nil => exact fun _ => .singleton a
        | cons b ds =>
            intro hall
            simp only [List.tail_cons, List.zip_cons_cons, List.all_cons, Bool.and_eq_true,
              decide_eq_true_eq] at hall
            exact .cons_cons hall.1 (ih hall.2)
  let before (a b : Diagnostic) : Prop := a.position ≤ b.position
  have htrans : Trans before before before := ⟨fun hab hbc => Nat.le_trans hab hbc⟩
  exact (hchain o.pending h).pairwise

/-- Leaving out the sorting does not show. -/
theorem takeAll_fst (o : Outbox) : o.takeAll.1 = sortedBy Diagnostic.position o.pending := by
  unfold takeAll
  split
  · next h => exact (sortedBy_of_pairwise Diagnostic.position (pairwise_of_inOrder h)).symm
  · rfl

/-- The outboxes that come about under the given rules, each with the errors that were
accepted since it was last emptied, oldest first. -/
inductive Run [DecidableEq κ] (digest : String → κ) (rules : OutboxRules) :
    List Diagnostic → Outbox → Prop
  | start : Run digest rules [] (empty rules)
  | offer {accepted : List Diagnostic} {o : Outbox} (h : Run digest rules accepted o)
      (d : Diagnostic) :
      Run digest rules (if (o.offerBy digest d).1 then accepted ++ [d] else accepted)
        (o.offerBy digest d).2
  | emit {accepted : List Diagnostic} {o : Outbox} (h : Run digest rules accepted o)
      (d : Diagnostic) :
      Run digest rules (if (o.offerBy digest d).1 then accepted ++ [d] else accepted)
        (o.emitBy digest d).2
  | takeAll {accepted : List Diagnostic} {o : Outbox} (h : Run digest rules accepted o) :
      Run digest rules [] o.takeAll.2

/-- Under its rules the outbox holds these errors, counts them, has room for them, and
remembers the last of them. -/
structure Holds (rules : OutboxRules) (accepted : List Diagnostic) (o : Outbox) : Prop where
  rules_eq : o.rules = rules
  pending_eq : o.pending = accepted
  count_eq : o.count = accepted.length
  bounded : 0 < rules.capacity → accepted.length ≤ rules.capacity
  last_eq : o.last? = accepted.getLast?.map Diagnostic.fingerprint

namespace Holds

variable {rules : OutboxRules} {accepted : List Diagnostic} {o : Outbox}

/-- An empty outbox holds no accepted error. -/
theorem empty (rules : OutboxRules) : Holds rules [] (empty rules) :=
  ⟨rfl, rfl, rfl, fun _ => Nat.zero_le _, rfl⟩

/-- What is remembered is the imprint of the last accepted error. -/
theorem memory_eq (h : Holds rules accepted o) (digest : String → κ) :
    o.memory digest = accepted.getLast?.map (Diagnostic.imprint digest) := by
  rw [memory, h.last_eq, Option.map_map]
  rfl

variable [DecidableEq κ]

/-- **One offer.** -/
theorem offerBy (h : Holds rules accepted o) (digest : String → κ) (d : Diagnostic) :
    Holds rules (if (o.offerBy digest d).1 then accepted ++ [d] else accepted)
      (o.offerBy digest d).2 := by
  rcases offerBy_cases digest o d with ⟨-, heq⟩ | ⟨haccepts, heq⟩
  · simpa [heq] using h
  · have hroom : ¬ (0 < o.rules.capacity ∧ o.rules.capacity ≤ o.count) := fun hfull => by
      rw [rejectsBy_iff.mpr (.inl hfull)] at haccepts
      cases haccepts
    rw [h.rules_eq, h.count_eq] at hroom
    rw [heq]
    exact
      { rules_eq := h.rules_eq
        pending_eq := by simp [h.pending_eq]
        count_eq := by simp [h.count_eq]
        bounded := fun hcap => by
          simp only [if_true, List.length_append, List.length_singleton]
          omega
        last_eq := by simp }

/-- An error that is no consequence is turned down only by an outbox that holds another. -/
theorem evidence_emitBy (h : Holds rules accepted o) {digest : String → κ} {d : Diagnostic}
    (hd : d.isConsequence = false) : (o.emitBy digest d).2.evidence?.isSome = true := by
  have hcount : 0 < (o.emitBy digest d).2.count := by
    rw [emitBy]
    rcases offerBy_cases digest o d with ⟨hrejects, heq⟩ | ⟨-, heq⟩
    · rw [heq]
      rcases rejectsBy_iff.mp hrejects with ⟨hcap, hfull⟩ | ⟨-, hconsequence⟩ | ⟨-, hrepeat⟩
      · exact Nat.lt_of_lt_of_le hcap hfull
      · rw [hd] at hconsequence
        cases hconsequence
      · rw [h.memory_eq] at hrepeat
        obtain ⟨last, hlast, -⟩ := Option.map_eq_some_iff.mp hrepeat
        rw [h.count_eq]
        exact List.length_pos_of_mem (List.mem_of_getLast? hlast)
    · simp [heq]
  simp [evidence?, Reported.ofCount?, hcount]

end Holds

section Runs

variable [DecidableEq κ] {digest : String → κ} {rules : OutboxRules} {accepted : List Diagnostic}
  {o : Outbox}

/-- **A whole run.** -/
theorem Run.holds (h : Run digest rules accepted o) : Holds rules accepted o := by
  induction h with
  | start => exact .empty rules
  | offer _ d ih => exact ih.offerBy digest d
  | emit _ d ih => exact ih.offerBy digest d
  | @takeAll _ o _ ih =>
      have hfresh : o.takeAll.2 = Outbox.empty rules := congrArg Outbox.empty ih.rules_eq
      rw [hfresh]
      exact .empty rules

/-- **The outbox.**  After any run it holds what it accepted since it was last emptied, in
order, with the right count and within its capacity, and remembers the position and the
digest of the last of it, nothing when it is empty.  It drops an error exactly when it is
full, when the error is a consequence, or when it has the position and the digest of the
last accepted one, each as far as the rules say so, and then it does not change.  An error
that is no consequence leaves evidence behind however it is received.  What is taken out
is what was accepted, by position, and in the order of acceptance at one position; after
that the outbox is a new one. -/
theorem Run.holds_accepted (h : Run digest rules accepted o) :
    (o.rules = rules ∧ o.pending = accepted ∧ o.count = o.pending.length ∧
      (0 < rules.capacity → o.count ≤ rules.capacity)) ∧
    o.memory digest = o.pending.getLast?.map (Diagnostic.imprint digest) ∧
    (∀ d, ((o.offerBy digest d).1 = false ↔
        (0 < rules.capacity ∧ o.count = rules.capacity) ∨
        (rules.dropConsequences = true ∧ d.isConsequence = true) ∨
        (rules.dropRepeats = true ∧ ∃ last, accepted.getLast? = some last ∧
          last.position = d.position ∧
          digest (Text.beginning Diagnostic.comparedLength last.message) =
            digest (Text.beginning Diagnostic.comparedLength d.message))) ∧
      ((o.offerBy digest d).1 = false → (o.offerBy digest d).2 = o)) ∧
    (∀ d, d.isConsequence = false → (o.emitBy digest d).2.evidence?.isSome = true) ∧
    (o.takeAll.1.Perm accepted ∧ o.takeAll.1.Pairwise (fun a b => a.position ≤ b.position) ∧
      ∀ p, o.takeAll.1.filter (fun d => d.position = p) = accepted.filter fun d => d.position = p) ∧
    o.takeAll.2 = empty rules := by
  have hholds := h.holds
  have hcount : o.count = o.pending.length := hholds.count_eq.trans (by rw [hholds.pending_eq])
  have hbounded : 0 < rules.capacity → o.count ≤ rules.capacity := by
    rw [hholds.count_eq]
    exact hholds.bounded
  refine ⟨⟨hholds.rules_eq, hholds.pending_eq, hcount, hbounded⟩, ?_,
    fun d => ⟨?_, offerBy_of_false⟩, fun d => hholds.evidence_emitBy, ?_,
    congrArg Outbox.empty hholds.rules_eq⟩
  · rw [hholds.pending_eq]
    exact hholds.memory_eq digest
  · have hfull : (0 < rules.capacity ∧ rules.capacity ≤ o.count) ↔
        0 < rules.capacity ∧ o.count = rules.capacity := by omega
    have hrepeat : o.memory digest = some (d.imprint digest) ↔
        ∃ last, accepted.getLast? = some last ∧ last.position = d.position ∧
          digest (Text.beginning Diagnostic.comparedLength last.message) =
            digest (Text.beginning Diagnostic.comparedLength d.message) := by
      rw [hholds.memory_eq, Option.map_eq_some_iff]
      simp only [Diagnostic.imprint, Diagnostic.fingerprint, Prod.mk.injEq]
    rw [offerBy_eq_false, rejectsBy_iff, hholds.rules_eq, hfull, hrepeat]
  · rw [takeAll_fst, hholds.pending_eq]
    exact ⟨sortedBy_perm _ _, pairwise_sortedBy _ _, filter_sortedBy _ _⟩

/-- An error without notes at a position. -/
def errorAt (position : Nat) (message : String) : Diagnostic :=
  ⟨.noMethod, message, [⟨⟨position, position + 1⟩, "here"⟩], [], []⟩

/-- Two errors are received, told apart by the lengths of their messages alone.  The third
is taken for a repeat of the second. -/
theorem holds_accepted_pair :
    let first := ((empty {}).offerBy String.length (errorAt 30 "no field")).2
    let o := (first.emitBy String.length (errorAt 5 "no value")).2
    Run String.length {} [errorAt 30 "no field", errorAt 5 "no value"] o ∧
      (o.offerBy String.length (errorAt 5 "no place")).1 = false ∧
      o.takeAll.1.Perm [errorAt 30 "no field", errorAt 5 "no value"] ∧
      o.takeAll.2 = empty {} := by
  intro first o
  have hfirst : ((empty {}).offerBy String.length (errorAt 30 "no field")).1 = true := by
    decide +kernel
  have hsecond : (first.offerBy String.length (errorAt 5 "no value")).1 = true := by decide +kernel
  have hrun : Run String.length {} [errorAt 30 "no field", errorAt 5 "no value"] o := by
    have hstart : Run String.length {} [] (empty {}) := .start
    have hboth := (hstart.offer (errorAt 30 "no field")).emit (errorAt 5 "no value")
    rwa [if_pos hfirst, if_pos hsecond] at hboth
  obtain ⟨-, -, hoffer, -, htaken, hfresh⟩ := hrun.holds_accepted
  refine ⟨hrun, ((hoffer _).1).mpr (.inr (.inr ⟨rfl, errorAt 5 "no value", rfl, rfl, ?_⟩)),
    htaken.1, hfresh⟩
  decide +kernel

end Runs

end Outbox

end DotCall
