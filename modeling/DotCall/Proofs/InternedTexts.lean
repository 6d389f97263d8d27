import DotCall.SymbolTable
import Mathlib.Algebra.Group.Nat.Defs
import Std.Data.HashMap.Lemmas

/-!
# Interned texts

A symbol names a text in a table when the text stands at the place that the symbol points
at (`Names`).  A table that grows from a new one by interning stores each text at most
once, and only in the shard that its own bytes select (`Sound`).  So in such a table no
text has two symbols and no symbol two texts (`Sound.symbol_eq_iff`).

Interning never moves what is stored (`stores_intern`), and afterwards the text stands at
the place whose symbol was issued (`intern_stores`).  The symbol points there as long as
the place can be written in 28 bits (`Fits`), and then every symbol that a run issues
keeps its text to the end (`issued_iff`).  It can as long as no text is refused for want
of room in its shard (`Fits.tryInternAll_ok_iff`).
-/

namespace DotCall

namespace Symbol

variable {shard : Fin 16} {place : Nat}

/-- The symbol of a place. -/
def ofPlace (shard : Fin 16) (place : Nat) : Symbol :=
  pack shard.val.toUInt32 place.toUInt32

/-- The word of a symbol has the shard in its four highest bits and the place below them.
-/
theorem toNat_word_ofPlace (hplace : place < 2 ^ 28) :
    (ofPlace shard place).word.toNat = shard.val * 2 ^ 28 + place := by
  have hshard : shard.val.toUInt32.toNat = shard.val := Nat.mod_eq_of_lt (by omega)
  have hlow : place.toUInt32.toNat = place := Nat.mod_eq_of_lt (by omega)
  have hshift : (shard.val.toUInt32 <<< 28).toNat = shard.val <<< 28 := by
    rw [UInt32.toNat_shiftLeft, hshard]
    exact Nat.mod_eq_of_lt (by simp [Nat.shiftLeft_eq]; omega)
  rw [ofPlace, pack, UInt32.toNat_or, hshift, hlow, ← Nat.shiftLeft_add_eq_or_of_lt hplace,
    Nat.shiftLeft_eq]

/-- A symbol's shard is what is left of its word above the 28 bits of the place. -/
theorem val_shard_eq (n : Symbol) : n.shard.val = n.word.toNat / 2 ^ 28 := by
  have hword : n.word.toNat < 2 ^ 32 := n.word.toNat_lt
  have hshift : (n.word >>> 28).toNat = n.word.toNat / 2 ^ 28 := by
    rw [UInt32.toNat_shiftRight]
    exact Nat.shiftRight_eq_div_pow _ _
  rw [shard, hshift]
  exact Nat.mod_eq_of_lt (by omega)

/-- A symbol's place is the lowest 28 bits of its word. -/
theorem place_eq_mod (n : Symbol) : n.place = n.word.toNat % 2 ^ 28 := by
  rw [place, UInt32.toNat_and]
  exact Nat.and_two_pow_sub_one_eq_mod _ 28

/-- What is packed can be read back. -/
theorem shard_ofPlace (hplace : place < 2 ^ 28) : (ofPlace shard place).shard = shard := by
  apply Fin.ext
  rw [val_shard_eq, toNat_word_ofPlace hplace]
  omega

/-- The place comes back from a symbol, as long as it was written in 28 bits. -/
theorem place_ofPlace (hplace : place < 2 ^ 28) : (ofPlace shard place).place = place := by
  rw [place_eq_mod, toNat_word_ofPlace hplace]
  omega

/-- Shard and place together are the whole word. -/
theorem eq_of_shard_of_place {n m : Symbol} (hshard : n.shard = m.shard)
    (hplace : n.place = m.place) : n = m := by
  have hhigh := congrArg Fin.val hshard
  rw [val_shard_eq, val_shard_eq] at hhigh
  rw [place_eq_mod, place_eq_mod] at hplace
  have hword : n.word = m.word := UInt32.toNat_inj.mp (by omega)
  cases n
  cases m
  exact congrArg Symbol.mk hword

end Symbol

namespace SymbolTable

variable {table : SymbolTable} {shard : Fin 16} {place : Nat} {text t : String} {n m : Symbol}

/-- The text stands at a place of a shard. -/
def Stores (table : SymbolTable) (shard : Fin 16) (place : Nat) (text : String) : Prop :=
  table.shards[shard].texts[place]? = some text

/-- How many texts a shard has. -/
def count (table : SymbolTable) (shard : Fin 16) : Nat := table.shards[shard].texts.size

/-- Every shard is small enough for its places to be written in 28 bits. -/
def Fits (table : SymbolTable) : Prop := ∀ shard, table.count shard ≤ 2 ^ 28

instance (table : SymbolTable) : Decidable table.Fits :=
  inferInstanceAs (Decidable (∀ shard, table.count shard ≤ 2 ^ 28))

/-- The map of a shard and its array agree on the place of every text, a text is stored
in no other shard than the one it belongs to, and the empty text comes first. -/
structure Sound (table : SymbolTable) : Prop where
  agrees : ∀ {place text}, table.place? text = some place ↔ table.Stores (shardOf text) place text
  home : ∀ {shard place text}, table.Stores shard place text → shard = shardOf text
  blank : table.Stores 0 0 ""

/-- Each text is stored once: its map knows one place for it. -/
theorem Sound.once (h : table.Sound) {place' : Nat} (hstored : table.Stores shard place text)
    (hstored' : table.Stores shard place' text) : place = place' := by
  obtain rfl := h.home hstored
  exact Option.some.inj ((h.agrees.mpr hstored).symm.trans (h.agrees.mpr hstored'))

/-- Only the first shard of a new table has a text, the empty one. -/
theorem shards_new : new.shards[shard] =
    if shard = 0 then SymbolShard.empty.push "" else .empty := by
  simp only [new, Fin.getElem_fin, Vector.getElem_set, Vector.getElem_replicate, Fin.ext_iff,
    Fin.val_zero, eq_comm]

/-- A new table stores nothing but the empty text, where the blank symbol points. -/
theorem new_stores_iff : new.Stores shard place text ↔ shard = 0 ∧ place = 0 ∧ text = "" := by
  rw [Stores, shards_new]
  by_cases hshard : shard = 0
  · rw [if_pos hshard]
    cases place with
    | zero => simp [SymbolShard.push, SymbolShard.empty, hshard, eq_comm]
    | succ place => simp [SymbolShard.push, SymbolShard.empty]
  · rw [if_neg hshard]
    simp [SymbolShard.empty, hshard]

/-- The map of a new table has nothing but the empty text either. -/
theorem new_place?_eq_some : new.place? text = some place ↔ text = "" ∧ place = 0 := by
  rw [place?, shards_new]
  by_cases htext : text = ""
  · subst htext
    have hzero : shardOf "" = 0 := by decide +kernel
    simp [hzero, SymbolShard.push, SymbolShard.empty, eq_comm]
  · split <;> simp [SymbolShard.push, SymbolShard.empty, htext, Ne.symm htext]

/-- A new table is sound: its one text is in the shard of that text, once. -/
theorem new_sound : new.Sound where
  agrees {place text} := by
    rw [new_place?_eq_some, new_stores_iff]
    constructor
    · rintro ⟨rfl, rfl⟩
      exact ⟨by decide +kernel, rfl, rfl⟩
    · rintro ⟨-, rfl, rfl⟩
      exact ⟨rfl, rfl⟩
  home h := by
    obtain ⟨rfl, -, rfl⟩ := new_stores_iff.mp h
    decide +kernel
  blank := new_stores_iff.mpr ⟨rfl, rfl, rfl⟩

/-- The table with a text at the end of a shard. -/
def push (table : SymbolTable) (shard : Fin 16) (text : String) : SymbolTable :=
  ⟨table.shards.set shard (table.shards[shard].push text)⟩

/-- A new text changes its own shard and no other. -/
theorem shards_push {home : Fin 16} : (table.push home text).shards[shard] =
    if home = shard then table.shards[home].push text else table.shards[shard] := by
  simp only [push, Fin.getElem_fin, Vector.getElem_set, Fin.ext_iff]

/-- What a table stores after a text was put at the end of a shard: all that it stored,
where it stored it, and the new text in the place that was free. -/
theorem push_stores_iff {home : Fin 16} : (table.push home text).Stores shard place t ↔
    table.Stores shard place t ∨ shard = home ∧ place = table.count home ∧ t = text := by
  rw [Stores, Stores, shards_push]
  by_cases hshard : home = shard
  · subst hshard
    rw [if_pos rfl, SymbolShard.push, Array.getElem?_push]
    by_cases hplace : place = table.shards[home].texts.size
    · subst hplace
      rw [if_pos rfl, Array.getElem?_eq_none (Nat.le_refl _)]
      simp [count, eq_comm]
    · rw [if_neg hplace]
      exact ⟨.inl, fun h => h.resolve_right fun hnew => hplace hnew.2.1⟩
  · rw [if_neg hshard]
    exact ⟨.inl, fun h => h.resolve_right fun hnew => hshard hnew.1.symm⟩

/-- The map learns the place of the new text, and of no other. -/
theorem place?_push : (table.push (shardOf text) text).place? t =
    if text = t then some (table.count (shardOf text)) else table.place? t := by
  rw [place?, place?, shards_push]
  by_cases htext : text = t
  · subst htext
    simp [SymbolShard.push, count]
  · rw [if_neg htext]
    split
    · next hshard => simp [SymbolShard.push, Std.HashMap.getElem?_insert, htext, hshard]
    · rfl

/-- A new text makes its own shard larger by one. -/
theorem count_push {home : Fin 16} : (table.push home text).count shard =
    if shard = home then table.count shard + 1 else table.count shard := by
  rw [count, shards_push]
  by_cases hshard : home = shard
  · subst hshard
    simp [count, SymbolShard.push]
  · rw [if_neg hshard, if_neg (Ne.symm hshard), count]

/-- **One step.**  A text that the map of its shard has is found, and any other goes to the
end of its shard. -/
theorem intern_cases (table : SymbolTable) (text : String) :
    (∃ place, table.place? text = some place ∧
      table.intern text = (.ofPlace (shardOf text) place, table)) ∨
    table.place? text = none ∧ table.intern text =
      (.ofPlace (shardOf text) (table.count (shardOf text)), table.push (shardOf text) text) := by
  cases hplace : table.place? text with
  | some place => exact .inl ⟨place, rfl, by simp only [intern, hplace]; rfl⟩
  | none => exact .inr ⟨rfl, by simp only [intern, hplace]; rfl⟩

/-- Interning never moves what is stored. -/
theorem stores_intern (h : table.Stores shard place t) (text : String) :
    (table.intern text).2.Stores shard place t := by
  rcases table.intern_cases text with ⟨_, -, heq⟩ | ⟨-, heq⟩
  · rwa [heq]
  · rw [heq]
    exact push_stores_iff.mpr (.inl h)

/-- The symbol is that of a place at which the text now stands. -/
theorem Sound.intern_stores (h : table.Sound) (text : String) :
    ∃ place, (table.intern text).1 = .ofPlace (shardOf text) place ∧
      (table.intern text).2.Stores (shardOf text) place text := by
  rcases table.intern_cases text with ⟨place, hplace, heq⟩ | ⟨-, heq⟩
  · exact ⟨place, by rw [heq], by rw [heq]; exact h.agrees.mp hplace⟩
  · exact ⟨_, by rw [heq], by rw [heq]; exact push_stores_iff.mpr (.inr ⟨rfl, rfl, rfl⟩)⟩

/-- **The map and the array of a shard stay in agreement**, and a text stays where it
belongs. -/
theorem Sound.intern (h : table.Sound) (text : String) : (table.intern text).2.Sound := by
  rcases table.intern_cases text with ⟨_, -, heq⟩ | ⟨hnew, heq⟩
  · rwa [heq]
  · rw [heq]
    refine ⟨fun {place t} => ?_, fun hstored => ?_, push_stores_iff.mpr (.inl h.blank)⟩
    · rw [place?_push, push_stores_iff, ← h.agrees]
      by_cases htext : text = t
      · subst htext
        simp [hnew, eq_comm]
      · simp [htext, Ne.symm htext]
    · rcases push_stores_iff.mp hstored with hold | ⟨rfl, -, rfl⟩
      · exact h.home hold
      · rfl

/-- The symbol points at a place where the text stands. -/
def Names (table : SymbolTable) (n : Symbol) (text : String) : Prop :=
  table.Stores n.shard n.place text

/-- Where every shard is small enough, every place in use is written in 28 bits. -/
theorem Fits.place_lt (h : table.Fits) (hstored : table.Stores shard place text) :
    place < 2 ^ 28 := by
  obtain ⟨hlt, -⟩ := Array.getElem?_eq_some_iff.mp hstored
  exact Nat.lt_of_lt_of_le hlt (h shard)

/-- In a table that fits, the symbol of a place names what is stored there. -/
theorem Fits.names (h : table.Fits) (hstored : table.Stores shard place text) :
    table.Names (.ofPlace shard place) text := by
  have hplace := h.place_lt hstored
  rwa [Names, Symbol.shard_ofPlace hplace, Symbol.place_ofPlace hplace]

/-- A symbol reads as the text that it names. -/
theorem Names.text_eq (h : table.Names n t) : table.text n = t := by
  rw [text, show table.shards[n.shard].texts[n.place]? = some t from h, Option.getD_some]

namespace Sound

variable (h : table.Sound)
include h

theorem blank_names : table.Names .blank "" := h.blank

/-- A text stands only where its symbol points. -/
theorem stores_iff (hn : table.Names n t) :
    table.Stores shard place t ↔ shard = n.shard ∧ place = n.place := by
  constructor
  · intro hstored
    have hshard : shard = n.shard := (h.home hstored).trans (h.home hn).symm
    subst hshard
    exact ⟨rfl, h.once hstored hn⟩
  · rintro ⟨rfl, rfl⟩
    exact hn

/-- **One symbol for one text.** -/
theorem symbol_eq_iff {s : String} (hn : table.Names n s) (hm : table.Names m t) :
    n = m ↔ s = t := by
  constructor
  · rintro rfl
    exact hn.text_eq.symm.trans hm.text_eq
  · rintro rfl
    obtain ⟨hshard, hplace⟩ := (h.stores_iff hm).mp hn
    exact Symbol.eq_of_shard_of_place hshard hplace

end Sound

/-- Interns texts one after the other; the symbols in the same order. -/
def internAll (table : SymbolTable) : List String → List Symbol × SymbolTable
  | [] => ([], table)
  | text :: texts =>
    let first := table.intern text
    let rest := first.2.internAll texts
    (first.1 :: rest.1, rest.2)

/-- There is one symbol for each text of a run. -/
theorem length_internAll (table : SymbolTable) (texts : List String) :
    (table.internAll texts).1.length = texts.length := by
  induction texts generalizing table with
  | nil => rfl
  | cons text texts ih => exact congrArg Nat.succ (ih (table.intern text).2)

/-- A run can be cut in two; the second part starts from the table of the first. -/
theorem internAll_append (table : SymbolTable) (texts later : List String) :
    (table.internAll (texts ++ later)).2 = ((table.internAll texts).2.internAll later).2 := by
  induction texts generalizing table with
  | nil => rfl
  | cons text texts ih => exact ih (table.intern text).2

/-- A whole run never moves what was stored before it. -/
theorem stores_internAll (h : table.Stores shard place t) (texts : List String) :
    (table.internAll texts).2.Stores shard place t := by
  induction texts generalizing table with
  | nil => exact h
  | cons text texts ih => exact ih (stores_intern h text)

theorem Sound.internAll (h : table.Sound) (texts : List String) :
    (table.internAll texts).2.Sound := by
  induction texts generalizing table with
  | nil => exact h
  | cons text texts ih => exact ih (h.intern text)

/-- Every symbol of a run is that of a place at which its text stands to the end. -/
theorem Sound.issued_stores (hsound : table.Sound) {texts : List String}
    (h : (t, n) ∈ texts.zip (table.internAll texts).1) :
    ∃ place, n = .ofPlace (shardOf t) place ∧
      (table.internAll texts).2.Stores (shardOf t) place t := by
  induction texts generalizing table with
  | nil => cases h
  | cons text texts ih =>
      rcases List.mem_cons.mp h with hfirst | hrest
      · obtain ⟨rfl, rfl⟩ := Prod.mk.inj hfirst
        obtain ⟨place, heq, hstored⟩ := hsound.intern_stores t
        exact ⟨place, heq, stores_internAll hstored texts⟩
      · exact ih (hsound.intern text) hrest

/-- Tables only grow, so one that fits after a step has fitted before it. -/
theorem Fits.of_intern (h : (table.intern text).2.Fits) : table.Fits := by
  rcases table.intern_cases text with ⟨_, -, heq⟩ | ⟨-, heq⟩
  · rwa [heq] at h
  · rw [heq] at h
    exact fun shard => Nat.le_trans (by rw [count_push]; split <;> omega) (h shard)

/-- The same for a run: to fit at the end is to fit all along. -/
theorem Fits.of_internAll {texts : List String} (h : (table.internAll texts).2.Fits) :
    table.Fits := by
  induction texts generalizing table with
  | nil => exact h
  | cons text texts ih => exact (ih h).of_intern

/-- A step makes a shard larger by one at most. -/
theorem count_intern_le (table : SymbolTable) (text : String) (shard : Fin 16) :
    (table.intern text).2.count shard ≤ table.count shard + 1 := by
  rcases table.intern_cases text with ⟨_, -, heq⟩ | ⟨-, heq⟩
  · rw [heq]
    exact Nat.le_succ _
  · rw [heq, count_push]
    split <;> omega

/-- A run makes a shard larger by as many texts as it has at most. -/
theorem count_internAll_le (table : SymbolTable) (texts : List String) (shard : Fin 16) :
    (table.internAll texts).2.count shard ≤ table.count shard + texts.length := by
  induction texts generalizing table with
  | nil => exact Nat.le_refl _
  | cons text texts ih =>
      have hfirst := table.count_intern_le text shard
      have hrest := ih (table.intern text).2
      simp only [internAll, List.length_cons]
      omega

/-- Fewer texts than a shard has places fit, whatever shards they belong to. -/
theorem fits_of_length {texts : List String} (h : texts.length < 2 ^ 28) :
    (new.internAll texts).2.Fits := by
  intro shard
  have hrun := new.count_internAll_le texts shard
  have hfirst : new.count shard ≤ 1 := by
    rw [count, shards_new]
    split <;> simp [SymbolShard.push, SymbolShard.empty]
  omega

/-- There is room for a text exactly where its symbol points at its place afterwards. -/
theorem Fits.room_iff (h : table.Fits) (text : String) :
    ((table.place? text).isSome = true ∨
      table.count (shardOf text) ≤ Symbol.placeMask.toNat) ↔ (table.intern text).2.Fits := by
  have hmask : Symbol.placeMask.toNat + 1 = 2 ^ 28 := rfl
  rcases table.intern_cases text with ⟨place, hplace, heq⟩ | ⟨hnew, heq⟩
  · rw [heq]
    exact ⟨fun _ => h, fun _ => .inl (by simp [hplace])⟩
  · rw [heq]
    constructor
    · rintro (hplace | hroom)
      · simp [hnew] at hplace
      · intro shard
        rw [count_push]
        split
        · next hshard => subst hshard; omega
        · exact h shard
    · intro hfits
      have hhome := hfits (shardOf text)
      rw [count_push, if_pos rfl] at hhome
      exact .inr (by omega)

/-- **One checked step.**  Only a new text for a full shard is refused. -/
theorem Fits.tryIntern_eq (h : table.Fits) (text : String) :
    table.tryIntern text =
      if (table.intern text).2.Fits then .ok (table.intern text)
      else .error ⟨shardOf text, 2 ^ 28⟩ := by
  have hroom := h.room_iff text
  by_cases hfits : (table.intern text).2.Fits
  · rw [if_pos hfits]
    exact if_pos (hroom.mpr hfits)
  · rw [if_neg hfits]
    have hno := mt hroom.mp hfits
    have hmask : Symbol.placeMask.toNat + 1 = 2 ^ 28 := rfl
    have hfull : table.count (shardOf text) = 2 ^ 28 := by
      have hhome := h (shardOf text)
      omega
    rw [← hfull]
    exact if_neg hno

/-- Interns texts one after the other until one is refused. -/
def tryInternAll (table : SymbolTable) :
    List String → Except ShardOverflow (List Symbol × SymbolTable)
  | [] => .ok ([], table)
  | text :: texts => do
    let first ← table.tryIntern text
    let rest ← first.2.tryInternAll texts
    pure (first.1 :: rest.1, rest.2)

/-- **No text is refused** in a run whose table fits at the end, and the symbols are those
of unchecked interning. -/
theorem Fits.tryInternAll_eq {texts : List String} (h : (table.internAll texts).2.Fits) :
    table.tryInternAll texts = .ok (table.internAll texts) := by
  induction texts generalizing table with
  | nil => rfl
  | cons text texts ih =>
      -- a table that fits in the end has fitted all along
      have hrest : ((table.intern text).2.internAll texts).2.Fits := h
      have hfirst : (table.intern text).2.Fits := hrest.of_internAll
      rw [tryInternAll, hfirst.of_intern.tryIntern_eq, if_pos hfirst]
      change ((table.intern text).2.tryInternAll texts >>= _) = _
      rw [ih hrest]
      rfl

/-- **A run goes through** exactly when all texts fit into their shards in the end. -/
theorem Fits.tryInternAll_ok_iff (h : table.Fits) {texts : List String}
    {r : List Symbol × SymbolTable} :
    table.tryInternAll texts = .ok r ↔ r = table.internAll texts ∧ r.2.Fits := by
  constructor
  · intro hok
    induction texts generalizing table r with
    | nil =>
        cases hok
        exact ⟨rfl, h⟩
    | cons text texts ih =>
        rw [tryInternAll, h.tryIntern_eq] at hok
        split at hok
        · next hfirst =>
            change ((table.intern text).2.tryInternAll texts >>= _) = _ at hok
            cases hrest : (table.intern text).2.tryInternAll texts with
            | error e =>
                rw [hrest] at hok
                cases hok
            | ok rest =>
                rw [hrest] at hok
                cases hok
                obtain ⟨rfl, hfits⟩ := ih hfirst hrest
                exact ⟨rfl, hfits⟩
        · cases hok
  · rintro ⟨rfl, hfits⟩
    exact hfits.tryInternAll_eq

/-- In the table as it is at the end, the symbols of a run read as their texts. -/
theorem text_of_issued (texts : List String) (hfits : (new.internAll texts).2.Fits)
    (h : (t, n) ∈ texts.zip (new.internAll texts).1) : (new.internAll texts).2.text n = t := by
  obtain ⟨place, rfl, hstored⟩ := new_sound.issued_stores h
  exact (hfits.names hstored).text_eq

/-- Two texts that are interned in a new table read back. -/
theorem text_intern_intern (first second : String) :
    let both := (new.intern first).2.intern second
    both.2.text (new.intern first).1 = first ∧ both.2.text both.1 = second := by
  have hread : ∀ t n, (t, n) ∈ [first, second].zip (new.internAll [first, second]).1 →
      (new.internAll [first, second]).2.text n = t := fun _ _ =>
    text_of_issued _ (fits_of_length (by simp))
  simp only [internAll] at hread
  exact ⟨hread _ _ List.mem_cons_self, hread _ _ (List.mem_cons_of_mem _ List.mem_cons_self)⟩

/-- **Interning.**  Texts are interned one after the other in a new table, and later others,
never too many in one shard.  Every call issues a symbol.  Two of the symbols are equal
exactly when their texts are, the symbol of the empty text is the blank one and no other
is, and in the table as it is later every symbol still reads as its text, which stands
there at the place that the symbol points at and nowhere else. -/
theorem issued_iff (texts later : List String)
    (hfits : (new.internAll (texts ++ later)).2.Fits) :
    let issued := texts.zip (new.internAll texts).1
    let table := (new.internAll (texts ++ later)).2
    (new.internAll texts).1.length = texts.length ∧
    ∀ s n, (s, n) ∈ issued →
      (∀ t m, (t, m) ∈ issued → (n = m ↔ s = t)) ∧
      (n = .blank ↔ s = "") ∧
      table.text n = s ∧
      n.shard = shardOf s ∧
      ∀ shard place, table.Stores shard place s ↔ shard = n.shard ∧ place = n.place := by
  intro issued table
  have hsound : table.Sound := new_sound.internAll _
  have hnames {s : String} {n : Symbol} (h : (s, n) ∈ issued) : table.Names n s := by
    obtain ⟨place, rfl, hstored⟩ := new_sound.issued_stores h
    have hlater := stores_internAll hstored later
    rw [← internAll_append] at hlater
    exact hfits.names hlater
  refine ⟨length_internAll new texts, fun s n hn => ?_⟩
  exact ⟨fun t m hm => hsound.symbol_eq_iff (hnames hn) (hnames hm),
    hsound.symbol_eq_iff (hnames hn) hsound.blank_names, (hnames hn).text_eq,
    hsound.home (hnames hn), fun _ _ => hsound.stores_iff (hnames hn)⟩

/-- Texts with more than one byte for a character, one of them twice, and the empty text. -/
theorem issued_iff_accents :
    let symbols := (new.internAll ["größe", "", "größer", "größe"]).1
    let table := (new.internAll ["größe", "", "größer", "größe", "naïve"]).2
    symbols[0]! = symbols[3]! ∧ symbols[0]! ≠ symbols[2]! ∧ symbols[1]! = .blank ∧
      table.text symbols[2]! = "größer" := by
  intro symbols table
  obtain ⟨hlength, hissued⟩ := issued_iff ["größe", "", "größer", "größe"] ["naïve"]
    (fits_of_length (by decide))
  have hfour : ∀ ns : List Symbol, ns.length = 4 → ∃ a b c d, ns = [a, b, c, d]
    | [a, b, c, d], _ => ⟨a, b, c, d, rfl⟩
  obtain ⟨a, b, c, d, hsymbols⟩ := hfour symbols hlength
  rw [show (new.internAll ["größe", "", "größer", "größe"]).1 = _ from hsymbols] at hissued
  rw [hsymbols]
  have hfirst := hissued "größe" a (by simp)
  have hblank := hissued "" b (by simp)
  have hlonger := hissued "größer" c (by simp)
  exact ⟨(hfirst.1 "größe" d (by simp)).mpr rfl,
    fun heq => absurd ((hfirst.1 "größer" c (by simp)).mp heq) (by decide),
    hblank.2.1.mpr rfl, hlonger.2.2.1⟩

end SymbolTable

end DotCall
