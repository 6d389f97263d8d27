import DotCall.Proofs.TypeRebuilding
import DotCall.Type.Transplant

/-!
# Recursions that come to an end

The loops of a store are bounded by the number of its types, and answer also where
the bound is reached.  Here each of them is written with any limit on the depth of
its calls, and gives no value where it would go deeper; so a recursion without a
limit comes to an end when some limit is enough for it.  Where links do not run in
a circle one always is, and the value is the one that the bounded loop gives.

On the way down every step lowers the rank of a type, which carries the proofs
about one store.  Expansion changes the store as it goes; there the height of the
meaning falls, and the changes on the way are quiet, so they leave it alone.
-/

namespace DotCall

theorem Tree.texts_eq_map (sp : Spelling) (ts : List Tree) :
    Tree.texts sp ts = ts.map (Tree.text sp) := by
  induction ts with
  | nil => rfl
  | cons t ts ih => simp [Tree.texts, ih]

/-- From some limit on the depth on, every one is enough and gives `a`. -/
def Ends {α : Type} (f : Nat → Option α) (a : α) : Prop :=
  ∃ depth, ∀ n, depth ≤ n → f n = some a

namespace Ends

variable {α β : Type} {f : Nat → Option α} {a : α}

theorem of_eq (h : ∀ n, f n = some a) : Ends f a := ⟨0, fun n _ => h n⟩

/-- A call inside another one may go less deep by one. -/
theorem succ (h : Ends (fun n => f (n + 1)) a) : Ends f a := by
  obtain ⟨depth, h⟩ := h
  refine ⟨depth + 1, fun n hn => ?_⟩
  cases n with
  | zero => omega
  | succ n => exact h n (by omega)

/-- Two computations that end, the second for the answer of the first, end one after the
other: the larger of the two depths is enough for both. -/
theorem bind {g : Nat → α → Option β} {b : β} (hf : Ends f a) (hg : Ends (fun n => g n a) b) :
    Ends (fun n => (f n).bind (g n)) b := by
  obtain ⟨depth, hf⟩ := hf
  obtain ⟨depth', hg⟩ := hg
  refine ⟨max depth depth', fun n hn => ?_⟩
  simp only [hf n (by omega), Option.bind_some]
  exact hg n (by omega)

/-- Finitely many computations that end end together. -/
theorem mapM {f : Nat → α → Option β} {g : α → β} {xs : List α}
    (h : ∀ a ∈ xs, Ends (fun n => f n a) (g a)) : Ends (fun n => xs.mapM (f n)) (xs.map g) := by
  induction xs with
  | nil => exact .of_eq fun _ => rfl
  | cons a xs ih =>
      simp only [List.mapM_cons]
      refine (h a List.mem_cons_self).bind ?_
      exact (ih fun b hb => h b (List.mem_cons_of_mem _ hb)).bind (.of_eq fun _ => rfl)

/-- So do finitely many tests. -/
theorem anyM {f : Nat → α → Option Bool} {g : α → Bool} {xs : List α}
    (h : ∀ a ∈ xs, Ends (fun n => f n a) (g a)) : Ends (fun n => xs.anyM (f n)) (xs.any g) := by
  induction xs with
  | nil => exact .of_eq fun _ => rfl
  | cons a xs ih =>
      simp only [List.anyM_cons, List.any_cons]
      refine (h a List.mem_cons_self).bind ?_
      cases g a with
      | true => exact .of_eq fun _ => rfl
      | false => exact ih fun b hb => h b (List.mem_cons_of_mem _ hb)

end Ends

namespace TypeStore

/-- Work on a store that need not come to an end. -/
abbrev Work (α : Type) := StateT TypeStore Option α

/-- An action of the store, which always comes to an end. -/
def Work.of {α : Type} (m : StateM TypeStore α) : Work α := fun s => some (m.run s)

namespace Limited

/-- Follow links to their end. -/
def root (s : TypeStore) : Nat → TypeId → Option TypeId
  | 0, _ => none
  | n + 1, t =>
    match s.link? t with
    | some (_, target) => root s n target
    | none => some t

/-- Follow links to their end, pointing each variable passed at it. -/
def findRoot : Nat → TypeId → Work TypeId
  | 0, _ => failure
  | n + 1, t => do
    match (← get).link? t with
    | none => pure t
    | some (id, target) =>
      let last ← findRoot n target
      if last ≠ target then Work.of (assign id (.linked last))
      pure last

/-- Replace every linked variable of a type by what it stands for. -/
def expand : Nat → TypeId → Work TypeId
  | 0, _ => failure
  | n + 1, t => do
    if ((← get).summary t).hasVar then
      let t ← findRoot n t
      match (← get).node t with
      | .atom _ => pure t
      | .app f args =>
        let args ← args.mapM (expand n)
        Work.of (intern (.app f args))
    else pure t

/-- Look for a variable in a type, links included. -/
def occurs (s : TypeStore) (var : Nat) : Nat → TypeId → Option Bool
  | 0, _ => none
  | n + 1, t =>
    if (s.summary t).hasVar then
      match s.node t with
      | .atom (.var id) =>
        if id = var then some true
        else match s.binding id with
          | .linked target => occurs s var n target
          | _ => some false
      | .atom _ => some false
      | .app _ args => args.anyM (occurs s var n)
    else some false

/-- Print a type, read through links. -/
def typeText (s : TypeStore) (names : SymbolTable) : Nat → TypeId → Option String
  | 0, _ => none
  | n + 1, t => do
    match s.node (← root s n t) with
    | .atom a => pure (a.text (s.spelling names))
    | .app f args =>
      let args ← args.mapM (typeText s names n)
      pure (f.text (s.spelling names) args)

/-- Rebuild a type of the store `other`. -/
def carryFrom (other : TypeStore) : Nat → TypeId → Work TypeId
  | 0, _ => failure
  | n + 1, t => do
    match other.node (← StateT.lift (root other n t)) with
    | .atom a => Work.of (build (.atom a))
    | .app f args =>
      let args ← args.mapM (carryFrom other n)
      Work.of (intern (.app f args))

end Limited

/-- At `s` the work comes to an end, with the outcome of the action. -/
def Agrees {α : Type} (s : TypeStore) (w : Nat → Work α) (m : StateM TypeStore α) : Prop :=
  Ends (fun n => (w n).run s) (m.run s)

namespace Agrees

variable {α β : Type} {s : TypeStore} {w : Nat → Work α} {m : StateM TypeStore α}

theorem pure (a : α) : Agrees s (fun _ => pure a) (pure a) := .of_eq fun _ => rfl

theorem of (m : StateM TypeStore α) : Agrees s (fun _ => Work.of m) m := .of_eq fun _ => rfl

theorem succ (h : Agrees s (fun n => w (n + 1)) m) : Agrees s w m := Ends.succ h

theorem get {f : Nat → TypeStore → Work β} {g : TypeStore → StateM TypeStore β}
    (h : Agrees s (fun n => f n s) (g s)) : Agrees s (fun n => get >>= f n) (get >>= g) := h

/-- Work that agrees is followed by work that agrees, on the store that the first has
left. -/
theorem bind {f : Nat → α → Work β} {g : α → StateM TypeStore β} (hm : Agrees s w m)
    (hf : Agrees (m.run s).2 (fun n => f n (m.run s).1) (g (m.run s).1)) :
    Agrees s (fun n => w n >>= f n) (m >>= g) :=
  Ends.bind hm hf

/-- A bounded question about the store that ends may come before. -/
theorem lift {o : Nat → Option α} {f : Nat → α → Work β} {a : α} {m : StateM TypeStore β}
    (ho : Ends o a) (h : Agrees s (fun n => f n a) m) :
    Agrees s (fun n => StateT.lift (o n) >>= f n) m := by
  obtain ⟨depth, ho⟩ := ho
  obtain ⟨depth', h⟩ := h
  refine ⟨max depth depth', fun n hn => ?_⟩
  simp only [ho n (by omega)]
  exact h n (by omega)

/-- Each element in turn, while an invariant holds of the store. -/
theorem mapM {f : Nat → α → Work β} {g : α → StateM TypeStore β} {P : TypeStore → Prop}
    (hs : P s) {xs : List α}
    (h : ∀ a ∈ xs, ∀ x, P x → Agrees x (fun n => f n a) (g a) ∧ P ((g a).run x).2) :
    Agrees s (fun n => xs.mapM (f n)) (xs.mapM g) := by
  induction xs generalizing s with
  | nil => exact .pure []
  | cons a xs ih =>
      simp only [List.mapM_cons]
      obtain ⟨hfirst, hnext⟩ := h a List.mem_cons_self s hs
      refine hfirst.bind ((ih hnext fun b hb => h b (List.mem_cons_of_mem _ hb)).bind ?_)
      exact .pure _

end Agrees

/-- The second half of the mutual recursion is a loop over the first. -/
theorem buildAll_eq_mapM (ts : List Tree) : buildAll ts = ts.mapM build := by
  induction ts with
  | nil => rfl
  | cons t ts ih => rw [buildAll, List.mapM_cons, ih]

/-- A compound tree is built by building its parts from left to right. -/
theorem build_app (f : Former) (ts : List Tree) :
    build (.app f ts) = ts.mapM build >>= fun args => intern (.app f args) := by
  rw [build, buildAll_eq_mapM]

namespace Ordered

variable {s : TypeStore}

/-- Following links ends: the rank falls at each link. -/
theorem root_ends (h : s.Ordered) (t : TypeId) : Ends (Limited.root s · t) (s.root t) := by
  induction t using h.link_induction with
  | here t hl =>
      refine .succ (.of_eq fun n => ?_)
      rw [Limited.root, hl, root_of_no_link hl]
  | link t id u hl ih =>
      refine .succ ?_
      simp only [Limited.root, hl, h.root_of_link hl]
      exact ih

/-- Finding a root with shortening ends likewise, and shortens the same links. -/
theorem findRootWithin_agrees {rank : TypeId → Nat}
    (hrank : ∀ c t, s.Descends c t → rank c < rank t) {n : Nat} {t : TypeId} (hn : rank t ≤ n) :
    Agrees s (Limited.findRoot · t) (findRootWithin n t) := by
  induction n generalizing t with
  | zero =>
      have hl : s.link? t = none := by
        cases hl : s.link? t with
        | none => rfl
        | some p =>
            have hlt := hrank p.2 t (.inr ⟨p.1, hl⟩)
            omega
      refine .succ (.get (g := fun _ => Pure.pure t) ?_)
      simp only [hl]
      exact .pure t
  | succ n ih =>
      rw [findRootWithin]
      refine .succ (.get ?_)
      cases hl : s.link? t with
      | none => exact .pure t
      | some p =>
          obtain ⟨id, target⟩ := p
          have hlt := hrank target t (.inr ⟨id, hl⟩)
          refine (ih (t := target) (by omega)).bind ?_
          split
          · exact (Agrees.of _).bind (.pure _)
          · exact .pure _

/-- So does the search with the bound of the store. -/
theorem findRoot_agrees (h : s.Ordered) (t : TypeId) :
    Agrees s (Limited.findRoot · t) (findRoot t) := by
  obtain ⟨rank, hrank, hle, -⟩ := h.exists_rank
  exact findRootWithin_agrees hrank (hle t)

/-- Looking at one layer for a variable comes to an end when looking below it does. -/
theorem occursNode_ends {var : Nat} {t : TypeId} {w : Nat → TypeId → Option Bool} {n : Nat}
    (hdown : ∀ c, s.Descends c t → Ends (w · c) (s.occursWithin var n c)) :
    Ends (fun k => match s.node t with
        | .atom (.var id) =>
          if id = var then some true
          else match s.binding id with
            | .linked target => w k target
            | _ => some false
        | .atom _ => some false
        | .app _ args => args.anyM (w k))
      (match s.node t with
        | .atom (.var id) =>
          id == var ||
          match s.binding id with
          | .linked target => s.occursWithin var n target
          | _ => false
        | .atom _ => false
        | .app _ args => args.any (s.occursWithin var n)) := by
  cases hnode : s.node t with
  | app f args =>
      exact Ends.anyM fun a ha => hdown a (.inl (by simpa [hnode, Node.args] using ha))
  | atom a =>
      cases a with
      | var id =>
          by_cases hid : id = var
          · exact .of_eq fun _ => by simp [hid]
          · cases hb : s.binding id with
            | linked target =>
                have hrest := hdown target (.inr ⟨id, link?_eq_some.mpr ⟨hnode, hb⟩⟩)
                simpa [hid, hb, beq_eq_false_iff_ne.mpr hid] using hrest
            | _ => exact .of_eq fun _ => by simp [hid, hb]
      | _ => exact .of_eq fun _ => rfl

/-- Looking for a variable agrees with a search that agrees with it one layer at a time. -/
theorem occurs_ends_of (h : s.Ordered) {var : Nat} {w : Nat → TypeId → Option Bool}
    (hstep : ∀ n t, (∀ c, s.Descends c t → Ends (w · c) (s.occursWithin var n c)) →
      Ends (w · t) (s.occursWithin var (n + 1) t)) (t : TypeId) :
    Ends (w · t) (s.occurs var t) := by
  obtain ⟨rank, hrank, hle, -⟩ := h.exists_rank
  suffices hbound : ∀ n t, rank t < n → Ends (w · t) (s.occursWithin var n t) from
    hbound _ t (Nat.lt_succ_of_le (hle t))
  intro n
  induction n with
  | zero => intro t hn; omega
  | succ n ih =>
      intro t hn
      refine hstep n t fun c hc => ih c ?_
      have hlt := hrank c t hc
      omega

/-- The occurs check ends, for the rank falls at each argument and at each link. -/
theorem occurs_ends (h : s.Ordered) (var : Nat) (t : TypeId) :
    Ends (Limited.occurs s var · t) (s.occurs var t) := by
  refine h.occurs_ends_of (fun n t hdown => .succ ?_) t
  simp only [Limited.occurs, occursWithin]
  cases (s.summary t).hasVar with
  | false => exact .of_eq fun _ => rfl
  | true =>
      simp only [if_true, Bool.true_and]
      exact occursNode_ends hdown

/-- Printing ends at the same depth as reading the meaning. -/
theorem typeText_ends (h : s.Ordered) (names : SymbolTable) (t : TypeId) :
    Ends (Limited.typeText s names · t) (s.typeText names t) := by
  induction t using h.root_induction with
  | step t ih =>
      refine .succ ((h.root_ends t).bind ?_)
      cases hn : s.node (s.root t) with
      | atom a => exact .of_eq fun _ => by simp [TypeStore.typeText, meaning_of_atom hn, Tree.text]
      | app f args =>
          simp only [TypeStore.typeText, h.meaning_of_app hn, Tree.text, Tree.texts_eq_map,
            List.map_map]
          have hargs := Ends.mapM fun a ha => ih a (by simpa [hn, Node.args] using ha)
          exact hargs.bind (.of_eq fun _ => rfl)

/-- Carrying a type over ends and builds the same types. -/
theorem carryFrom_agrees (h : s.Ordered) (t : TypeId) (target : TypeStore) :
    Agrees target (Limited.carryFrom s · t) (carryFrom s t) := by
  induction t using h.root_induction generalizing target with
  | step t ih =>
      refine .succ (.lift (h.root_ends t) ?_)
      rw [carryFrom]
      cases hn : s.node (s.root t) with
      | atom a =>
          rw [meaning_of_atom hn]
          exact .of _
      | app f args =>
          rw [h.meaning_of_app hn, build_app, List.mapM_map]
          refine (Agrees.mapM (P := fun _ => True) trivial fun a ha x _ => ?_).bind (.of _)
          exact ⟨ih a (by simpa [hn, Node.args] using ha) x, trivial⟩

/-- Going on from the root, expansion agrees with work that agrees with it on lower types. -/
theorem expandRoot_agrees (h : s.Ordered) {t : TypeId} (ht : s.Has t) {n : Nat}
    (hn : (s.meaning t).height < n + 1) {w : Nat → TypeId → Work TypeId}
    (hlower : ∀ x a, x.Ordered → x.Has a → (x.meaning a).height < n →
      Agrees x (w · a) (expandWithin n a)) :
    Agrees s
      (fun k => do
        let t ← Limited.findRoot k t
        match (← get).node t with
        | .atom _ => pure t
        | .app f args =>
          let args ← args.mapM (w k)
          Work.of (intern (.app f args)))
      (do
        let t ← findRoot t
        match (← get).node t with
        | .atom _ => pure t
        | .app f args =>
          let args ← args.mapM (expandWithin n)
          intern (.app f args)) := by
  refine (h.findRoot_agrees t).bind (.get ?_)
  obtain ⟨hroot, hq⟩ := h.findRoot_quiet t
  rw [hroot, hq.node_eq (h.has_root ht)]
  cases hnode : s.node (s.root t) with
  | atom a => exact .pure _
  | app f args =>
      -- expanding the arguments before this one was quiet, so it still has its height
      refine (Agrees.mapM (P := Quiet s) hq fun a ha x hx => ?_).bind (.of _)
      obtain ⟨harg, hlow⟩ := h.arg_of_root hnode ha
      have hheight : (x.meaning a).height < n := by
        rw [hx.meaning_eq harg]
        omega
      exact ⟨hlower x a hx.finish (hx.has harg) hheight,
        hx.trans (hx.finish.expandWithin_run (hx.has harg) hheight).1⟩

/-- Expanding ends at the height of the meaning, and leaves the same store. -/
theorem expandWithin_agrees (h : s.Ordered) {t : TypeId} (ht : s.Has t) {n : Nat}
    (hn : (s.meaning t).height < n) : Agrees s (Limited.expand · t) (expandWithin n t) := by
  induction n generalizing s t with
  | zero => omega
  | succ n ih =>
      rw [expandWithin]
      refine .succ (.get ?_)
      split
      · exact h.expandRoot_agrees ht hn fun x a hx ha hlow => ih hx ha hlow
      · exact .pure t

/-- So does expanding with the bound of the store. -/
theorem expand_agrees (h : s.Ordered) {t : TypeId} (ht : s.Has t) :
    Agrees s (Limited.expand · t) (expand t) :=
  h.expandWithin_agrees ht (Nat.lt_succ_of_le (h.height_meaning_le t))

end Ordered

end TypeStore

end DotCall
