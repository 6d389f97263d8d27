import DotCall.Proofs.SharedTypes

/-!
# Looking at types changes nothing

Finding the root of a type and expanding a type both write to the store: the one points
the variables that it passes at the end of their chain, the other also makes the types
that it needs.  Each such step keeps the root and the text of every type that is there
(`silent_of_steps`), and the whole work is made of such steps (`findRoot_steps`,
`expand_steps`).  Where the steps meet a variable, earlier ones may have shortened its
chain; it still ends where it did.

A type without linked variables is expanded to itself, and the store stays as it is
(`expandWithin_linkFree`).  What a type is expanded to is of this kind, so expanding twice
is expanding once (`expand_silent`).
-/

namespace DotCall.TypeStore

open Relation

variable {s s' : TypeStore} {t u : TypeId}

/-- One change that finding a root or expanding a type makes: a linked variable is pointed
at the end of its chain, or a compound type is looked up or made. -/
inductive Resolves : TypeStore → TypeStore → Prop where
  | shorten {s : TypeStore} {id : Nat} {target : TypeId} (hb : s.binding id = .linked target) :
      Resolves s (s.assigned id (.linked (s.root target)))
  | make {s : TypeStore} {f : Former} {args : List TypeId} (hargs : ∀ a ∈ args, s.Has a)
      (htakes : f.Takes args.length) : Resolves s ((intern (.app f args)).run s).2

/-- A step is quiet and makes no variable. -/
theorem Resolves.quiet (h : Resolves s s') (hs : s.Ordered) :
    Quiet s s' ∧ s'.variableCount = s.variableCount := by
  cases h with
  | shorten hb => exact ⟨.of_shortens (shortens_assigned hb) hs, assigned_count⟩
  | make hargs htakes =>
      obtain ⟨hq, hadds, -⟩ := hs.intern_quiet hargs htakes
      exact ⟨hq, congrArg Array.size hadds.bindings⟩

/-- Any number of resolving steps are quiet and make no variable. -/
theorem quiet_of_steps (h : ReflTransGen Resolves s s') (hs : s.Ordered) :
    Quiet s s' ∧ s'.variableCount = s.variableCount := by
  induction h with
  | refl => exact ⟨.refl hs, rfl⟩
  | tail _ hstep ih =>
      obtain ⟨hq, hcount⟩ := ih
      obtain ⟨hq', hcount'⟩ := hstep.quiet hq.finish
      exact ⟨hq.trans hq', hcount'.trans hcount⟩

/-- Linked variables are all written alike, and the others keep their bindings. -/
theorem Keeps.spelling_eq (h : Keeps s s') (hcount : s'.variableCount = s.variableCount)
    (names : SymbolTable) : s'.spelling names = s.spelling names := by
  have hbinding : ∀ id, s'.binding id = s.binding id ∨
      ∃ u v, s.binding id = .linked u ∧ s'.binding id = .linked v := by
    intro id
    by_cases hid : id < s.variableCount
    · rcases h.binding id hid with hsame | ⟨u, hold, hnew⟩
      · exact .inl hsame
      · exact .inr ⟨u, _, hold, hnew⟩
    · have hnone : s.bindings[id]? = none := Array.getElem?_eq_none (Nat.le_of_not_lt hid)
      have hnone' : s'.bindings[id]? = none :=
        Array.getElem?_eq_none (Nat.le_of_not_lt (hcount.symm ▸ hid : ¬ id < s'.variableCount))
      exact .inl (by simp only [TypeStore.binding, hnone, hnone'])
  have hvar : s'.varText names = s.varText names := by
    funext id
    rcases hbinding id with heq | ⟨u, v, hu, hv⟩
    · rw [varText, varText, heq]
    · rw [varText, varText, hu, hv]
  have hgeneric : s'.genericText names = s.genericText names := by
    funext id
    rcases hbinding id with heq | ⟨u, v, hu, hv⟩
    · rw [genericText, genericText, heq]
    · rw [genericText, genericText, hu, hv]
  rw [spelling, spelling, hvar, hgeneric]

/-- **Silence.**  Whatever steps are made, every type that was there has the same root and
is written in the same way. -/
theorem silent_of_steps (h : ReflTransGen Resolves s s') (hs : s.Ordered) (names : SymbolTable)
    (hu : s.Has u) :
    s'.Has u ∧ s'.root u = s.root u ∧ s'.typeText names u = s.typeText names u := by
  obtain ⟨hq, hcount⟩ := quiet_of_steps h hs
  refine ⟨hq.has hu, hq.root_eq hu, ?_⟩
  rw [typeText, typeText, hq.meaning_eq hu, hq.keeps.spelling_eq hcount]

/-- The search for a root is made of such steps. -/
theorem Ordered.findRootWithin_steps (h : s.Ordered) {rank : TypeId → Nat}
    (hrank : ∀ c t, s.Descends c t → rank c < rank t) {n : Nat} (hn : rank t ≤ n) :
    ReflTransGen Resolves s ((findRootWithin n t).run s).2 := by
  induction n generalizing t with
  | zero => exact .refl
  | succ n ih =>
      cases hl : s.link? t with
      | none => rw [findRootWithin_of_no_link hl]
      | some p =>
          obtain ⟨id, target⟩ := p
          have hlt := hrank target t (.inr ⟨id, hl⟩)
          have hle : rank target ≤ n := by omega
          obtain ⟨hlast, hshort⟩ := h.findRootWithin_run hrank hle
          have hsteps := ih hle
          rw [findRootWithin_of_link hl, hlast]
          split
          · -- the rest of the chain may have been shortened already
            have hb : s.binding id = .linked target := (link?_eq_some.mp hl).2
            obtain ⟨v, hv, hroot⟩ := hshort.keeps.linked_root h (hshort.ordered h) hb
            rw [← hroot]
            exact hsteps.tail (.shorten hv)
          · exact hsteps

/-- So is the search with the bound of the store. -/
theorem Ordered.findRoot_steps (h : s.Ordered) (t : TypeId) :
    ReflTransGen Resolves s ((findRoot t).run s).2 := by
  obtain ⟨rank, hrank, hle, -⟩ := h.exists_rank
  exact h.findRootWithin_steps hrank (hle t)

/-- A loop over types makes the steps that are made for each. -/
theorem steps_mapM {one : TypeId → StateM TypeStore TypeId} {args : List TypeId}
    (hone : ∀ a ∈ args, ∀ x, ReflTransGen Resolves s x →
      ReflTransGen Resolves x ((one a).run x).2) {m : TypeStore} (hm : ReflTransGen Resolves s m) :
    ReflTransGen Resolves m ((args.mapM one).run m).2 := by
  induction args generalizing m with
  | nil => exact .refl
  | cons a args ih =>
      have hfirst := hone a List.mem_cons_self m hm
      have hrest := ih (fun b hb => hone b (List.mem_cons_of_mem _ hb)) (hm.trans hfirst)
      rw [run_mapM_cons]
      exact hfirst.trans hrest

/-- Expanding is made of such steps: roots are found, and types are interned. -/
theorem Ordered.expandWithin_steps (h : s.Ordered) (ht : s.Has t) {n : Nat}
    (hn : (s.meaning t).height < n) : ReflTransGen Resolves s ((expandWithin n t).run s).2 := by
  induction n generalizing s t with
  | zero => omega
  | succ n ih =>
      cases hv : (s.summary t).hasVar with
      | false => rw [expandWithin_of_no_var hv]
      | true =>
          have hq := (h.findRoot_quiet t).2
          have hfound := h.findRoot_steps t
          cases hnode : s.node (s.root t) with
          | atom a =>
              rw [h.expandWithin_of_atom ht hv hnode]
              exact hfound
          | app f args =>
              rw [h.expandWithin_of_app ht hv hnode, run_bind]
              generalize ((findRoot t).run s).2 = m at hq hfound
              have harg : ∀ a ∈ args, ∀ x, Quiet m x → x.Has a ∧ (x.meaning a).height < n := by
                intro a ha x hx
                obtain ⟨hold, hlow⟩ := h.arg_of_root hnode ha
                have hq' := hq.trans hx
                exact ⟨hq'.has hold, by rw [hq'.meaning_eq hold]; omega⟩
              have hloop : ReflTransGen Resolves m ((args.mapM (expandWithin n)).run m).2 := by
                refine steps_mapM (fun a ha x hx => ?_) .refl
                obtain ⟨hqx, -⟩ := quiet_of_steps hx hq.finish
                obtain ⟨hax, hlow⟩ := harg a ha x hqx
                exact ih hqx.finish hax hlow
              have hcalm : Calm m (args.mapM (expandWithin n)) fun x us =>
                  ∀ u ∈ us, ∃ a ∈ args, x.Has u :=
                Calm.mapM_mem (fun hq hu => hq.has hu) fun a ha x hx => by
                  obtain ⟨hax, hlow⟩ := harg a ha x hx
                  obtain ⟨hqx, hreads⟩ := hx.finish.expandWithin_run hax hlow
                  exact ⟨hqx, hreads.1⟩
              have hparts : ∀ u ∈ ((args.mapM (expandWithin n)).run m).1,
                  ((args.mapM (expandWithin n)).run m).2.Has u := fun u hu => by
                obtain ⟨-, -, hhas⟩ := (hcalm m (.refl hq.finish)).2 u hu
                exact hhas
              have htakes : f.Takes ((args.mapM (expandWithin n)).run m).1.length := by
                rw [length_run_mapM]
                exact h.wellFormed.takes hnode
              exact (hfound.trans hloop).tail (.make hparts htakes)

/-- So is expanding with the bound of the store. -/
theorem Ordered.expand_steps (h : s.Ordered) (ht : s.Has t) :
    ReflTransGen Resolves s ((expand t).run s).2 :=
  h.expandWithin_steps ht (Nat.lt_succ_of_le (h.height_meaning_le t))

/-- No linked variable is written in the type. -/
def LinkFree (s : TypeStore) (t : TypeId) : Prop :=
  ∀ id, .var id ∈ (s.written t).atoms → ∀ u, s.binding id ≠ .linked u

/-- A type in which no variable is linked is itself not linked. -/
theorem LinkFree.link?_eq_none (h : s.LinkFree t) : s.link? t = none := by
  rw [TypeStore.link?_eq_none]
  intro id u hn
  exact h id (by simp [WellFormed.written_of_atom hn]) u

/-- Neither are its arguments. -/
theorem WellFormed.linkFree_arg (h : s.WellFormed) (ht : s.LinkFree t) {a : TypeId}
    (ha : a ∈ (s.node t).args) : s.LinkFree a := by
  intro id hid
  refine ht id ?_
  cases hn : s.node t with
  | atom b => simp [hn, Node.args] at ha
  | app f args =>
      rw [h.written_of_app hn]
      rw [hn] at ha
      exact Tree.mem_atoms_app.mpr ⟨_, List.mem_map_of_mem ha, hid⟩

/-- A type without linked variables is expanded to itself, and nothing happens. -/
theorem Ordered.expandWithin_linkFree (h : s.Ordered) (ht : s.Has t) (hs : s.LinkFree t)
    (n : Nat) : (expandWithin n t).run s = (t, s) := by
  induction n generalizing t with
  | zero => rfl
  | succ n ih =>
      cases hv : (s.summary t).hasVar with
      | false => exact expandWithin_of_no_var hv (n + 1)
      | true =>
          have hroot : s.root t = t := root_of_no_link hs.link?_eq_none
          have hfound := findRoot_of_no_link hs.link?_eq_none
          cases hn : s.node t with
          | atom a => rw [h.expandWithin_of_atom ht hv (by rw [hroot, hn]), hroot, hfound]
          | app f args =>
              have hmem : ∀ a ∈ args, a ∈ (s.node t).args := by simp [hn, Node.args]
              have hloop : (args.mapM (expandWithin n)).run s = (args, s) :=
                mapM_of_still fun a ha =>
                  ih (h.wellFormed.has_arg (hmem a ha)) (h.wellFormed.linkFree_arg hs (hmem a ha))
              have hintern := h.wellFormed.intern_of_node ht
              rw [hn] at hintern
              rw [h.expandWithin_of_app ht hv (by rw [hroot, hn]), hfound, run_bind, hloop, hintern]

/-- What a type is expanded to has no linked variable. -/
theorem Ordered.expand_linkFree (h : s.Ordered) (ht : s.Has t) :
    let r := (expand t).run s
    r.2.LinkFree r.1 := by
  intro r id hid
  obtain ⟨hq, -, hwritten⟩ := h.expand_run ht
  rw [hwritten, ← hq.meaning_eq ht] at hid
  exact hq.finish.not_linked_of_mem_meaning hid

/-- **Looking is silent.**  From a store without circles, finding the root of a type gives
what following its links gave before, and it and expanding the type are made of steps, none
of which changes the root or the text of any type that is there.  The expanded type has no
linked variable, is expanded to itself, and is written as the type was.  And two types are
expanded to the same handle, whatever was looked at in between, exactly when they mean the
same. -/
theorem Ordered.expand_silent (h : s.Ordered) (ht : s.Has t) (names : SymbolTable) :
    let found := (findRoot t).run s
    let expanded := (expand t).run s
    found.1 = s.root t ∧
    (ReflTransGen Resolves s found.2 ∧ ReflTransGen Resolves s expanded.2) ∧
    (∀ m m', ReflTransGen Resolves s m → ReflTransGen Resolves m m' → ∀ u, m.Has u →
      m'.Has u ∧ m'.root u = m.root u ∧ m'.typeText names u = m.typeText names u) ∧
    (expanded.2.Has expanded.1 ∧ ∀ id, .var id ∈ (expanded.2.written expanded.1).atoms →
      ∀ u, expanded.2.binding id ≠ .linked u) ∧
    (expand expanded.1).run expanded.2 = expanded ∧
    expanded.2.typeText names expanded.1 = s.typeText names t ∧
    ∀ m u, ReflTransGen Resolves expanded.2 m → s.Has u →
      (s.meaning t = s.meaning u ↔ expanded.1 = ((expand u).run m).1) := by
  intro found expanded
  obtain ⟨hq, hreads⟩ := h.expand_run ht
  have hfree : expanded.2.LinkFree expanded.1 := h.expand_linkFree ht
  have hsteps := h.expand_steps ht
  have hmeaning : expanded.2.meaning expanded.1 = s.meaning t :=
    (hq.finish.meaning_eq_written hfree).trans hreads.2
  refine ⟨(h.findRoot_run t).1, ⟨h.findRoot_steps t, hsteps⟩, fun m m' hm hm' u hu => ?_,
    ⟨hreads.1, hfree⟩, hq.finish.expandWithin_linkFree hreads.1 hfree _, ?_,
    fun m u hm hu => ?_⟩
  · exact silent_of_steps hm' (quiet_of_steps hm h).1.finish names hu
  · have hspelling := hq.keeps.spelling_eq (quiet_of_steps hsteps h).2 names
    rw [typeText, typeText, hmeaning, hspelling]
  · obtain ⟨hqm, -⟩ := quiet_of_steps hm hq.finish
    have hlast := hqm.has (hq.has hu)
    obtain ⟨hqu, hreads'⟩ := hqm.finish.expand_run hlast
    rw [hqm.meaning_eq (hq.has hu), hq.meaning_eq hu] at hreads'
    have hlater := (hqm.trans hqu).reads hreads
    constructor
    · intro heq
      exact hqu.finish.wellFormed.written_injective hlater.1 hreads'.1
        (hlater.2.trans (heq.trans hreads'.2.symm))
    · intro heq
      rw [← hlater.2, ← hreads'.2, heq]

/-- A store with two variables, linked one to the other and that to `i32`. -/
def chained : TypeStore :=
  [.var, .var, .unify ⟨64⟩ ⟨65⟩, .unify ⟨65⟩ (.ofPrimitive .i32)].foldl
    (fun s (a : Action) => (a.perform.run s).2) new

theorem chained_reached : Reached [] chained :=
  Reached.new.acts (by cbv)

/-- Finding the root of the first variable shortens its chain, and both variables are
written as before. -/
theorem expand_silent_chained :
    let found := (findRoot ⟨64⟩).run chained
    chained.binding 0 = .linked ⟨65⟩ ∧ found.2.binding 0 = .linked (.ofPrimitive .i32) ∧
      found.1 = chained.root ⟨64⟩ ∧ found.2.typeText .new ⟨65⟩ = chained.typeText .new ⟨65⟩ := by
  intro found
  have hvalues :
      (chained.size, chained.binding 0, ((findRoot ⟨64⟩).run chained).2.binding 0) =
        (66, .linked ⟨65⟩, .linked (.ofPrimitive .i32)) := by cbv
  simp only [Prod.mk.injEq] at hvalues
  obtain ⟨hsize, hbefore, hafter⟩ := hvalues
  have hhas : ∀ {t : TypeId}, t.index < 66 → chained.Has t := fun ht => by
    rwa [TypeStore.Has, hsize]
  obtain ⟨hroot, ⟨hsteps, -⟩, hsilent, -⟩ :=
    chained_reached.sound.ordered.expand_silent (hhas (t := ⟨64⟩) (by decide)) .new
  exact ⟨hbefore, hafter, hroot, (hsilent _ _ .refl hsteps _ (hhas (by decide))).2.2⟩

end DotCall.TypeStore
