import DotCall.Proofs.ReservedSlots
import DotCall.Type.Layout

/-!
# Types in their arrays

A store says which node stands at a handle.  Laid out in words, the same types are three
arrays that nothing holds together but the constructors that fill them, and a table of
keys.  Whatever is done to a store, constructor calls alone lead to a layout that holds
its types (`Layout.Holds`): read through the accessors it gives at each handle the node
and the summary that the store has there, and it finds the same types again.

What the constructors keep to is `Layout.Kept`: an item has its summary, its words lie
within the shared array, and the keys lead to exactly the types that they belong to.
Since the arrays are only added to at their ends, what is read at a handle stays what it
was (`Extends.node_eq`), so equal types have equal handles for good (`Run.interned`).
-/

namespace DotCall

/-- What the constructor of a node looks it up by.  A reserved slot has no key, and neither
has a former with a number of arguments that it does not take. -/
def Node.key? : Node → Option ItemKey
  | .atom (.prim p) => some (.inline (.prim p) 0)
  | .atom (.reserved _) => none
  | .atom (.object traitName) => some (.inline .object traitName.word.toNat)
  | .atom (.var id) => some (.inline .var id)
  | .atom (.param position) => some (.inline .param position)
  | .atom (.generic id) => some (.inline .generic id)
  | .app (.ref b) [t] => some (.inline (.ref b) t.index)
  | .app .slice [t] => some (.inline .slice t.index)
  | .app (.array length) [t] => some (.payload .array [t.index, length])
  | .app (.nominal name) args =>
    some (.payload .nominal (name.word.toNat :: args.length :: args.map (·.index)))
  | .app _ _ => none

/-- The node that a key belongs to, read off its words. -/
def ItemKey.node? : ItemKey → Option Node
  | .inline (.prim p) _ => some (.atom (.prim p))
  | .inline (.ref b) word => some (.app (.ref b) [⟨word⟩])
  | .inline .slice word => some (.app .slice [⟨word⟩])
  | .inline .object word => some (.atom (.object ⟨.ofNat word⟩))
  | .inline .var word => some (.atom (.var word))
  | .inline .param word => some (.atom (.param word))
  | .inline .generic word => some (.atom (.generic word))
  | .payload .array [elem, length] => some (.app (.array length) [⟨elem⟩])
  | .payload .nominal (name :: _ :: args) =>
    some (.app (.nominal ⟨.ofNat name⟩) (args.map TypeId.mk))
  | _ => none

/-- A key that was made for a node is read back as that node. -/
theorem Node.node?_of_key? {n : Node} {k : ItemKey} (h : n.key? = some k) : k.node? = some n := by
  unfold key? at h
  split at h
  case h_2 | h_11 => cases h
  case h_10 name args =>
      have hargs : args.map (TypeId.mk ∘ fun a => a.index) = args := List.map_id' args
      cases h
      simp [ItemKey.node?, hargs]
  all_goals
    cases h
    simp [ItemKey.node?]

/-- Different nodes are looked up by different keys. -/
theorem Node.key?_injective {n m : Node} {k : ItemKey} (hn : n.key? = some k)
    (hm : m.key? = some k) : n = m :=
  Option.some.inj ((node?_of_key? hn).symm.trans (node?_of_key? hm))

namespace Layout

/-- The handle is one of the layout. -/
def Has (l : Layout) (t : TypeId) : Prop := t.index < l.items.size

/-- The type of a handle as a node, read off through the accessors. -/
def node (l : Layout) (t : TypeId) : Node :=
  match l.kind t with
  | .prim p => .atom (if t = .ofPrimitive p then .prim p else .reserved t.index)
  | .ref b => .app (.ref b) [l.inner t]
  | .slice => .app .slice [l.inner t]
  | .array => .app (.array (l.arrayLength t)) [l.arrayElem t]
  | .object => .atom (.object (l.objectTrait t))
  | .nominal => .app (.nominal (l.nominalName t)) (l.nominalArgs t)
  | .var => .atom (.var (l.variableId t))
  | .param => .atom (.param (l.paramPosition t))
  | .generic => .atom (.generic (l.variableId t))

/-- How many words a type has in the shared array. -/
def payloadLength (l : Layout) (t : TypeId) : Nat :=
  match l.kind t with
  | .array => 2
  | .nominal => 2 + l.extraAt t 1
  | _ => 0

/-- The words that a type has in the shared array. -/
def payload (l : Layout) (t : TypeId) : List Nat := l.words (l.word t) (l.payloadLength t)

/-- What stands in an array is read the same in a longer one. -/
theorem getElem?_of_prefix {α : Type} {xs ys : Array α} (h : xs.toList <+: ys.toList) {i : Nat}
    (hi : i < xs.size) : ys[i]? = xs[i]? := by
  have hget := List.prefix_iff_getElem?.mp h i (by simpa using hi)
  simp only [Array.getElem_toList, Array.getElem?_toList] at hget
  rw [hget, Array.getElem?_eq_getElem hi]

/-- The arrays were only added to, at their ends. -/
structure Extends (l l' : Layout) : Prop where
  items : l.items.toList <+: l'.items.toList
  summaries : l.summaries.toList <+: l'.summaries.toList
  extra : l.extra.toList <+: l'.extra.toList

/-- What the filling of the arrays keeps to: each item has its summary, the words of an
item lie within the shared array, the primitive types stand first, and the keys lead to
exactly the types that they are the keys of. -/
structure Kept (l : Layout) : Prop where
  reserved_le : TypeId.reservedCount ≤ l.items.size
  summaries_size : l.summaries.size = l.items.size
  fits : ∀ {t}, l.Has t → (l.kind t).isWide = true → l.word t + l.payloadLength t ≤ l.extra.size
  prim : ∀ p, l.node (.ofPrimitive p) = .atom (.prim p)
  handle_iff : ∀ {k t}, l.handles[k]? = some t ↔ l.Has t ∧ (l.node t).key? = some k

section Reading

variable {l l' l'' : Layout} {t : TypeId}

/-- Words are read from the array as a part of the list of them. -/
theorem words_eq (start count : Nat) :
    l.words start count = (l.extra.toList.drop start).take count := by
  simp [words]

/-- But for the primitive types and the reserved slots, a node shows the kind of its item. -/
theorem kind_of_node {n : Node} (h : l.node t = n) (hn : n.kind.isPrimitive = false) :
    l.kind t = n.kind := by
  subst h
  cases hk : l.kind t with
  | prim p =>
      simp only [node, hk, Node.kind] at hn
      split at hn <;> cases hn
  | _ => simp [node, hk, Node.kind, Former.kind, Atom.kind]

namespace Extends

theorem refl (l : Layout) : Extends l l :=
  ⟨List.prefix_rfl, List.prefix_rfl, List.prefix_rfl⟩

/-- Layouts are extended one after the other. -/
theorem trans (h : Extends l l') (h' : Extends l' l'') : Extends l l'' :=
  ⟨h.items.trans h'.items, h.summaries.trans h'.summaries, h.extra.trans h'.extra⟩

/-- A layout that is extended loses no type. -/
theorem has (h : Extends l l') (ht : l.Has t) : l'.Has t := by
  have hle := h.items.length_le
  simp only [Array.length_toList] at hle
  exact Nat.lt_of_lt_of_le ht hle

/-- The item of a type stays. -/
theorem item_eq (h : Extends l l') (ht : l.Has t) : l'.item t = l.item t := by
  rw [item, item, getElem?_of_prefix h.items ht]

/-- So does its kind. -/
theorem kind_eq (h : Extends l l') (ht : l.Has t) : l'.kind t = l.kind t := by
  rw [kind, h.item_eq ht, kind]

/-- So does the word beside the kind. -/
theorem word_eq (h : Extends l l') (ht : l.Has t) : l'.word t = l.word t := by
  rw [word, h.item_eq ht, word]

/-- So does its summary, which the second array has at the same position. -/
theorem summary_eq (h : Extends l l') (hl : l.Kept) (ht : l.Has t) :
    l'.summary t = l.summary t := by
  rw [summary, summary, getElem?_of_prefix h.summaries (hl.summaries_size ▸ ht)]

/-- Words that were within the array before stay where they were. -/
theorem words_eq (h : Extends l l') {start count : Nat} (hle : start + count ≤ l.extra.size) :
    l'.words start count = l.words start count := by
  obtain ⟨rest, hrest⟩ := h.extra
  rw [Layout.words_eq, Layout.words_eq, ← hrest, List.drop_append_of_le_length,
    List.take_append_of_le_length]
  · simp; omega
  · simp; omega

/-- What lies at the start of a payload stays, when the type has one. -/
theorem extraAt_eq (h : Extends l l') (hl : l.Kept) (ht : l.Has t)
    (hw : (l.kind t).isWide = true) {offset : Nat} (ho : offset < 2) :
    l'.extraAt t offset = l.extraAt t offset := by
  have hfits := hl.fits ht hw
  have hlen : 2 ≤ l.payloadLength t := by
    unfold payloadLength
    cases hk : l.kind t <;> simp [hk, Kind.isWide] at hw ⊢
  rw [extraAt, extraAt, h.word_eq ht, getElem?_of_prefix h.extra (by omega)]

/-- **What a handle stands for** is read the same however much is added. -/
theorem node_eq (h : Extends l l') (hl : l.Kept) (ht : l.Has t) : l'.node t = l.node t := by
  have hkind := h.kind_eq ht
  have hword := h.word_eq ht
  cases hk : l.kind t with
  | array =>
      have hw : (l.kind t).isWide = true := by rw [hk]; rfl
      simp only [node, hkind, hk, arrayLength, arrayElem, h.extraAt_eq hl ht hw Nat.zero_lt_two,
        h.extraAt_eq hl ht hw Nat.one_lt_two]
  | nominal =>
      have hw : (l.kind t).isWide = true := by rw [hk]; rfl
      have hfits := hl.fits ht hw
      simp only [payloadLength, hk] at hfits
      have hargs : l'.words (l.word t + 2) (l.extraAt t 1) = l.words (l.word t + 2) (l.extraAt t 1) :=
        h.words_eq (by omega)
      simp only [node, hkind, hk, nominalName, nominalArgs, hword,
        h.extraAt_eq hl ht hw Nat.zero_lt_two, h.extraAt_eq hl ht hw Nat.one_lt_two, hargs]
  | _ => simp only [node, hkind, hk, inner, objectTrait, variableId, paramPosition, hword]

/-- The length that a payload begins with, or has by its kind, stays. -/
theorem payloadLength_eq (h : Extends l l') (hl : l.Kept) (ht : l.Has t) :
    l'.payloadLength t = l.payloadLength t := by
  unfold payloadLength
  rw [h.kind_eq ht]
  cases hk : l.kind t with
  | nominal =>
      have hw : (l.kind t).isWide = true := by rw [hk]; rfl
      simp only [h.extraAt_eq hl ht hw Nat.one_lt_two]
  | _ => rfl

/-- **A payload stays** as a whole, since it ended before the array did. -/
theorem payload_eq (h : Extends l l') (hl : l.Kept) (ht : l.Has t) :
    l'.payload t = l.payload t := by
  rw [payload, payload, h.payloadLength_eq hl ht, h.word_eq ht]
  cases hw : (l.kind t).isWide with
  | true => exact h.words_eq (hl.fits ht hw)
  | false =>
      have hzero : l.payloadLength t = 0 := by
        unfold payloadLength
        cases hk : l.kind t <;> simp [hk, Kind.isWide] at hw ⊢
      simp [hzero, Layout.words_eq]

end Extends

end Reading

/-- Append the type that a key is the key of, and let the key lead to it. -/
def append (l : Layout) : ItemKey → Layout
  | .inline kind word =>
    (l.push ⟨kind, word⟩ (l.summaryOf kind word []) []).remember (.inline kind word) ⟨l.items.size⟩
  | .payload kind words =>
    (l.push ⟨kind, l.extra.size⟩ (l.summaryOf kind 0 words) words).remember (.payload kind words)
      ⟨l.items.size⟩

/-- Look up a key; what it is the key of is appended when it is not present yet. -/
def find : ItemKey → StateM Layout TypeId
  | .inline kind word => intern kind word
  | .payload kind words => internWide kind words

/-- A key that is known has its handle looked up. -/
theorem find_of_some {l : Layout} {k : ItemKey} {t : TypeId} (h : l.handles[k]? = some t) :
    (find k).run l = (t, l) := by
  cases k with
  | inline kind word => show intern kind word l = _; simp only [intern, h]
  | payload kind words => show internWide kind words l = _; simp only [internWide, h]

/-- A key that is not known is appended. -/
theorem find_of_none {l : Layout} {k : ItemKey} (h : l.handles[k]? = none) :
    (find k).run l = (⟨l.items.size⟩, l.append k) := by
  cases k with
  | inline kind word => show intern kind word l = _; simp only [intern, h, append]
  | payload kind words => show internWide kind words l = _; simp only [internWide, h, append]

section Append

variable {l : Layout} {k : ItemKey} {n : Node} {t : TypeId}

/-- Appending changes nothing that was there. -/
theorem append_extends : Extends l (l.append k) := by
  cases k with
  | _ => exact ⟨by simp [append, push, remember], by simp [append, push, remember],
      by simp [append, push, remember]⟩

/-- There is one more item. -/
theorem append_size : (l.append k).items.size = l.items.size + 1 := by
  cases k <;> simp [append, push, remember]

/-- There is one more summary, so both arrays stay of one length. -/
theorem append_summaries_size : (l.append k).summaries.size = l.summaries.size + 1 := by
  cases k <;> simp [append, push, remember]

/-- The key gets the handle of the new item. -/
theorem append_handles : (l.append k).handles = l.handles.insert k ⟨l.items.size⟩ := by
  cases k <;> rfl

/-- There is one more type. -/
theorem append_has : (l.append k).Has t ↔ l.Has t ∨ t.index = l.items.size := by
  rw [Has, append_size, Has]
  omega

/-- The last item is the one that was appended. -/
theorem append_inline_item {kind : Kind} {word : Nat} :
    (l.append (.inline kind word)).item ⟨l.items.size⟩ = ⟨kind, word⟩ := by
  simp [item, append, push, remember]

/-- The item of a wide type points at where the array of words ended before. -/
theorem append_payload_item {kind : Kind} {words : List Nat} :
    (l.append (.payload kind words)).item ⟨l.items.size⟩ = ⟨kind, l.extra.size⟩ := by
  simp [item, append, push, remember]

/-- The words of the last type are those it was appended with. -/
theorem append_extra {kind : Kind} {words : List Nat} (i : Nat) :
    (l.append (.payload kind words)).extra[l.extra.size + i]? = words[i]? := by
  simp [append, push, remember, Array.getElem?_append]

/-- From there on the words are those of the payload. -/
theorem append_words {kind : Kind} {words : List Nat} (i count : Nat) :
    (l.append (.payload kind words)).words (l.extra.size + i) count = (words.drop i).take count := by
  have hpast : l.extra.toList.drop (l.extra.size + i) = [] := by
    rw [List.drop_eq_nil_iff]
    simp
  simp [words_eq, append, push, remember, List.drop_append, hpast]

/-- They are read from the new type by their offsets. -/
theorem append_extraAt {kind : Kind} {words : List Nat} (i : Nat) :
    (l.append (.payload kind words)).extraAt ⟨l.items.size⟩ i = words[i]?.getD 0 := by
  rw [extraAt, word, append_payload_item, append_extra]

/-- **What is appended under the key of a node reads as that node.** -/
theorem append_node (hk : n.key? = some k) (hp : ∀ p, n ≠ .atom (.prim p)) :
    (l.append k).node ⟨l.items.size⟩ = n := by
  unfold Node.key? at hk
  split at hk
  case h_1 p => exact absurd rfl (hp p)
  case h_2 | h_11 => cases hk
  case h_10 name args =>
      have hargs : args.map (TypeId.mk ∘ fun a => a.index) = args := List.map_id' args
      cases hk
      simp [node, kind, word, append_payload_item, append_extraAt, append_words, nominalName,
        nominalArgs, hargs]
  all_goals
    cases hk
    simp [node, kind, word, append_inline_item, append_payload_item, append_extraAt, inner,
      objectTrait, variableId, paramPosition, arrayLength, arrayElem]

/-- The words that are appended lie within the shared array. -/
theorem append_fits (hk : n.key? = some k)
    (hw : ((l.append k).kind ⟨l.items.size⟩).isWide = true) :
    (l.append k).word ⟨l.items.size⟩ + (l.append k).payloadLength ⟨l.items.size⟩ ≤
      (l.append k).extra.size := by
  have hextra : ∀ kind words, (l.append (.payload kind words)).extra.size =
      l.extra.size + words.length := by simp [append, push, remember]
  unfold Node.key? at hk
  split at hk
  case h_9 t length =>
      cases hk
      simp [payloadLength, kind, word, append_payload_item, hextra]
  case h_10 name args =>
      cases hk
      simp [payloadLength, kind, word, append_payload_item, append_extraAt, hextra]
      omega
  all_goals
    cases hk
    try simp [kind, append_inline_item, Kind.isWide] at hw

/-- The summary that is worked out from the words is that of the node. -/
theorem append_summary (hl : l.summaries.size = l.items.size) (hk : n.key? = some k) :
    (l.append k).summary ⟨l.items.size⟩ = n.summary l.summary := by
  have hinline : ∀ kind word, (l.append (.inline kind word)).summary ⟨l.items.size⟩ =
      l.summaryOf kind word [] := by simp [summary, append, push, remember, ← hl]
  have hpayload : ∀ kind words, (l.append (.payload kind words)).summary ⟨l.items.size⟩ =
      l.summaryOf kind 0 words := by simp [summary, append, push, remember, ← hl]
  unfold Node.key? at hk
  split at hk
  case h_10 name args =>
      have hargs : args.map (l.summary ∘ TypeId.mk ∘ fun a => a.index) = args.map l.summary := rfl
      cases hk
      simp [hpayload, summaryOf, Node.summary, Former.summary, Function.comp_def]
  all_goals
    cases hk
    try simp [hinline, hpayload, summaryOf, Node.summary, Atom.summary, Former.summary, Summary.inheritedAll, Summary.union, Summary.plain, Summary.inherited]

end Append

namespace Kept

variable {l : Layout} {k : ItemKey} {n : Node} {t : TypeId}

/-- Every layout has the primitive types. -/
theorem has_primitive (h : l.Kept) (p : Primitive) : l.Has (.ofPrimitive p) := by
  have hlt : p.position < TypeId.reservedCount := by cases p <;> decide
  exact Nat.lt_of_lt_of_le hlt h.reserved_le

/-- Beyond the layout every handle reads as a reserved slot. -/
theorem node_of_not_has (h : l.Kept) (ht : ¬ l.Has t) : l.node t = .atom (.reserved t.index) := by
  have hkind : l.kind t = .prim .error := by
    simp [kind, item, Array.getElem?_eq_none (Nat.le_of_not_lt ht)]
  have hne : t ≠ .ofPrimitive .error := fun heq => ht (heq ▸ h.has_primitive .error)
  simp [node, hkind, hne]

/-- A handle beyond the layout has the summary of a reserved slot, as in the store. -/
theorem summary_of_not_has (h : l.Kept) (ht : ¬ l.Has t) :
    l.summary t = (Atom.reserved t.index).summary := by
  have hnone : l.summaries[t.index]? = none :=
    Array.getElem?_eq_none (h.summaries_size ▸ Nat.le_of_not_lt ht)
  simp [summary, hnone]

/-- Appending a node that no key leads to yet. -/
theorem append (h : l.Kept) (hk : n.key? = some k) (hp : ∀ p, n ≠ .atom (.prim p))
    (hnone : l.handles[k]? = none) : (l.append k).Kept where
  reserved_le := by have := h.reserved_le; rw [append_size]; omega
  summaries_size := by rw [append_size, append_summaries_size, h.summaries_size]
  fits {t} ht hw := by
    rcases append_has.mp ht with hold | hlast
    · have hext : Extends l (l.append k) := append_extends
      have hle := hext.extra.length_le
      simp only [Array.length_toList] at hle
      rw [hext.kind_eq hold] at hw
      rw [hext.word_eq hold, hext.payloadLength_eq h hold]
      exact Nat.le_trans (h.fits hold hw) hle
    · obtain rfl : t = ⟨l.items.size⟩ := by cases t; simp_all
      exact append_fits hk hw
  prim p := by rw [append_extends.node_eq h (h.has_primitive p), h.prim]
  handle_iff {m t} := by
    rw [append_handles, Std.HashMap.getElem?_insert, append_has]
    by_cases hm : k = m
    · subst m
      simp only [beq_self_eq_true, if_true, Option.some.injEq]
      constructor
      · rintro rfl
        exact ⟨.inr rfl, by rw [append_node hk hp, hk]⟩
      · rintro ⟨hold | hlast, hkey⟩
        · rw [append_extends.node_eq h hold] at hkey
          rw [h.handle_iff.mpr ⟨hold, hkey⟩] at hnone
          cases hnone
        · cases t; simp_all
    · rw [if_neg (by simpa using hm), h.handle_iff]
      constructor
      · rintro ⟨hold, hkey⟩
        exact ⟨.inl hold, by rwa [append_extends.node_eq h hold]⟩
      · rintro ⟨hold | hlast, hkey⟩
        · exact ⟨hold, by rwa [append_extends.node_eq h hold] at hkey⟩
        · obtain rfl : t = ⟨l.items.size⟩ := by cases t; simp_all
          rw [append_node hk hp, hk] at hkey
          exact absurd (Option.some.inj hkey) hm

/-- When the types that are there read as they should, and so does the appended one, then
all of them do. -/
theorem append_reads (h : l.Kept) (hk : n.key? = some k) (hp : ∀ p, n ≠ .atom (.prim p))
    {nodes : TypeId → Node} {summaries : TypeId → Summary}
    (hold : ∀ t, l.Has t → l.node t = nodes t ∧ l.summary t = summaries t)
    (hnode : nodes ⟨l.items.size⟩ = n)
    (hsummary : summaries ⟨l.items.size⟩ = n.summary l.summary) :
    ∀ t, (l.append k).Has t →
      (l.append k).node t = nodes t ∧ (l.append k).summary t = summaries t := by
  intro t ht
  rcases append_has.mp ht with hthas | hlast
  · rw [append_extends.node_eq h hthas, append_extends.summary_eq h hthas]
    exact hold t hthas
  · obtain rfl : t = ⟨l.items.size⟩ := by cases t; simp_all
    rw [hnode, hsummary]
    exact ⟨append_node hk hp, append_summary h.summaries_size hk⟩

/-- **Looking up the key of a node** gives a handle that reads as that node. -/
theorem find_run (h : l.Kept) (hk : n.key? = some k) (hp : ∀ p, n ≠ .atom (.prim p)) :
    let r := (find k).run l
    r.2.Kept ∧ Extends l r.2 ∧ r.2.Has r.1 ∧ r.2.node r.1 = n := by
  cases hh : l.handles[k]? with
  | some t =>
      obtain ⟨hhas, hkey⟩ := h.handle_iff.mp hh
      rw [find_of_some hh]
      exact ⟨h, .refl l, hhas, Node.key?_injective hkey hk⟩
  | none =>
      rw [find_of_none hh]
      exact ⟨h.append hk hp hh, append_extends, append_has.mpr (.inr rfl), append_node hk hp⟩

end Kept

/-- The constructor call that makes a node.  Primitive types and reserved slots are there
from the start, and a former with a number of arguments that it does not take is no type. -/
def make? : Node → Option (StateM Layout TypeId)
  | .atom (.object traitName) => some (objectOf traitName)
  | .atom (.var id) => some (variableOf id)
  | .atom (.param position) => some (paramAt position)
  | .atom (.generic id) => some (genericOf id)
  | .app (.ref b) [t] => some (refTo b t)
  | .app .slice [t] => some (sliceOf t)
  | .app (.array length) [t] => some (arrayOf t length)
  | .app (.nominal name) args => some (nominalType name args)
  | _ => none

/-- A constructor looks up the key of what it makes. -/
theorem make?_eq_some {n : Node} {c : StateM Layout TypeId} (h : make? n = some c) :
    ∃ k, n.key? = some k ∧ c = find k ∧ ∀ p, n ≠ .atom (.prim p) := by
  unfold make? at h
  split at h
  case h_9 => cases h
  all_goals
    cases h
    exact ⟨_, rfl, rfl, fun p => by simp⟩

/-- What has the right number of arguments and is not there from the start is made by
some constructor. -/
theorem exists_make {n : Node} (htakes : ∀ f args, n = .app f args → f.Takes args.length)
    (hp : ∀ p, n ≠ .atom (.prim p)) (hr : ∀ slot, n ≠ .atom (.reserved slot)) :
    ∃ c, make? n = some c := by
  cases n with
  | atom a =>
      cases a with
      | prim p => exact absurd rfl (hp p)
      | reserved slot => exact absurd rfl (hr slot)
      | _ => exact ⟨_, rfl⟩
  | app f args =>
      have hcount := htakes f args rfl
      cases f with
      | nominal name => exact ⟨_, rfl⟩
      | _ =>
          obtain ⟨t, rfl⟩ := List.length_eq_one_iff.mp hcount
          exact ⟨_, rfl⟩

/-- Constructor calls on types of the layout, one after the other. -/
inductive Built : Layout → Layout → Prop where
  | nil (l : Layout) : Built l l
  | make {l m : Layout} {n : Node} {c : StateM Layout TypeId} (h : Built l m)
      (hc : make? n = some c) (hargs : ∀ a ∈ n.args, m.Has a) : Built l (c.run m).2

/-- **Constructor calls** keep the arrays in step and only add to them. -/
theorem Built.kept_extends {l l' : Layout} (h : Built l l') (hl : l.Kept) :
    l'.Kept ∧ Extends l l' := by
  induction h with
  | nil => exact ⟨hl, .refl l⟩
  | make _ hc _ ih =>
      obtain ⟨hm, hext⟩ := ih
      obtain ⟨k, hk, rfl, hp⟩ := make?_eq_some hc
      obtain ⟨hkept, hadds, -⟩ := hm.find_run hk hp
      exact ⟨hkept, hext.trans hadds⟩

/-- What is built from a layout that was built is built from the first. -/
theorem Built.trans {l l' l'' : Layout} (h : Built l l') (h' : Built l' l'') : Built l l'' := by
  induction h' with
  | nil => exact h
  | make _ hc hargs ih => exact ih.make hc hargs

/-- The layout, which constructor calls have built from the first one, holds the types of
the store: at every handle the accessors give what the store has there. -/
structure Holds (l : Layout) (s : TypeStore) : Prop where
  built : Built new l
  size_eq : l.items.size = s.size
  node_eq : l.node = s.node
  summary_eq : l.summary = s.summary

/-- A new layout has an item for each reserved handle. -/
theorem new_size : new.items.size = TypeId.reservedCount := by decide +kernel

/-- **A new layout reads like a new store**, and has the same summaries. Both are tables
of fixed length, so the handles are gone through. -/
theorem new_reads {t : TypeId} (ht : new.Has t) :
    new.node t = TypeStore.new.node t ∧ new.summary t = TypeStore.new.summary t := by
  have hall : ∀ i < TypeId.reservedCount, new.node ⟨i⟩ = TypeStore.new.node ⟨i⟩ ∧
      new.summary ⟨i⟩ = TypeStore.new.summary ⟨i⟩ := by decide +kernel
  exact hall t.index (new_size ▸ ht)

/-- In the first layout the keys of the primitive types are all there are. -/
theorem new_handles {k : ItemKey} {t : TypeId} :
    new.handles[k]? = some t ↔ ∃ p, k = .inline (.prim p) 0 ∧ t = .ofPrimitive p := by
  have hinsert : ∀ (ps : List Primitive) (m : Std.HashMap ItemKey TypeId),
      (ps.foldl (fun m p => m.insert (.inline (.prim p) 0) (.ofPrimitive p)) m)[k]? = some t ↔
        (∃ p ∈ ps, k = .inline (.prim p) 0 ∧ t = .ofPrimitive p) ∨
          m[k]? = some t ∧ ∀ p ∈ ps, k ≠ .inline (.prim p) 0 := by
    intro ps
    induction ps with
    | nil => simp
    | cons p ps ih =>
        intro m
        rw [List.foldl_cons, ih, Std.HashMap.getElem?_insert]
        by_cases hp : ItemKey.inline (.prim p) 0 = k
        · subst hp
          simp
          grind
        · grind
  have hnew : new.handles = Primitive.all.foldl
      (fun m p => m.insert (.inline (.prim p) 0) (.ofPrimitive p)) ∅ := rfl
  have hall : ∀ p : Primitive, p ∈ Primitive.all := by intro p; cases p <;> decide
  simp [hnew, hinsert, hall]

/-- A new layout keeps its rules. -/
theorem new_kept : new.Kept where
  reserved_le := Nat.le_of_eq new_size.symm
  summaries_size := by decide +kernel
  fits {t} ht hw := by
    have hall : ∀ i < TypeId.reservedCount, (new.kind ⟨i⟩).isWide = false := by decide +kernel
    rw [hall t.index (new_size ▸ ht)] at hw
    cases hw
  prim p := by cases p <;> decide +kernel
  handle_iff {k t} := by
    have hprim : ∀ p, new.Has (.ofPrimitive p) ∧ new.node (.ofPrimitive p) = .atom (.prim p) := by
      simp only [Has, new_size]
      intro p
      cases p <;> decide +kernel
    have hall : ∀ i < TypeId.reservedCount, (new.node ⟨i⟩).key? = none ∨
        ∃ p ∈ Primitive.all, new.node ⟨i⟩ = .atom (.prim p) ∧ i = p.position := by decide +kernel
    rw [new_handles]
    constructor
    · rintro ⟨p, rfl, rfl⟩
      exact ⟨(hprim p).1, by rw [(hprim p).2]; rfl⟩
    · rintro ⟨ht, hkey⟩
      rcases hall t.index (new_size ▸ ht) with hnone | ⟨p, -, hnode, hindex⟩
      · rw [hnone] at hkey
        cases hkey
      · rw [hnode] at hkey
        exact ⟨p, (Option.some.inj hkey).symm, congrArg TypeId.mk hindex⟩

namespace Holds

variable {l l' : Layout} {s s' : TypeStore}

/-- Whatever holds a store was built from the new layout, so it keeps the rules. -/
theorem kept (h : l.Holds s) : l.Kept := (h.built.kept_extends new_kept).1

/-- A layout that holds a store has its types and no others. -/
theorem has_iff (h : l.Holds s) {t : TypeId} : l.Has t ↔ s.Has t := by
  rw [Has, h.size_eq, TypeStore.Has, TypeStore.size]

/-- It is enough to compare the types that are there. -/
theorem of_reads (hbuilt : Built new l) (hsize : l.items.size = s.size)
    (hreads : ∀ t, l.Has t → l.node t = s.node t ∧ l.summary t = s.summary t) : l.Holds s := by
  have hkept : l.Kept := (hbuilt.kept_extends new_kept).1
  have hnot : ∀ {t}, ¬ l.Has t → ¬ s.Has t := fun ht hs => ht (by rwa [Has, hsize])
  refine ⟨hbuilt, hsize, funext fun t => ?_, funext fun t => ?_⟩
  · by_cases ht : l.Has t
    · exact (hreads t ht).1
    · rw [hkept.node_of_not_has ht, TypeStore.node_of_not_has (hnot ht)]
  · by_cases ht : l.Has t
    · exact (hreads t ht).2
    · have hnone : s.entries[t.index]? = none := Array.getElem?_eq_none (Nat.le_of_not_lt (hnot ht))
      rw [hkept.summary_of_not_has ht, TypeStore.summary, hnone]

/-- The layout and the store find the same types. -/
theorem handles_eq (h : l.Holds s) (hs : s.WellFormed) {n : Node} {k : ItemKey}
    (hk : n.key? = some k) : l.handles[k]? = s.handles[n]? := by
  refine Option.ext fun t => ?_
  rw [h.kept.handle_iff, hs.handle_iff, h.has_iff, h.node_eq]
  refine and_congr_right fun _ => ⟨fun hkey => Node.key?_injective hkey hk, fun hn => ?_⟩
  rw [hn, hk]

/-- **A constructor call and interning**, side by side: the handle is the same, and the
layout holds the store again. -/
theorem make (h : l.Holds s) (hs : s.WellFormed) {n : Node} {c : StateM Layout TypeId}
    (hc : make? n = some c) (hargs : ∀ a ∈ n.args, s.Has a) :
    (c.run l).1 = ((TypeStore.intern n).run s).1 ∧
      (c.run l).2.Holds ((TypeStore.intern n).run s).2 := by
  have hbuilt : Built new (c.run l).2 := h.built.make hc fun a ha => h.has_iff.mpr (hargs a ha)
  obtain ⟨k, hk, rfl, hp⟩ := make?_eq_some hc
  cases hh : l.handles[k]? with
  | some t =>
      rw [find_of_some hh, TypeStore.intern_of_some (h.handles_eq hs hk ▸ hh)]
      exact ⟨rfl, h⟩
  | none =>
      rw [find_of_none hh] at hbuilt
      rw [find_of_none hh, TypeStore.intern_of_none (h.handles_eq hs hk ▸ hh)]
      refine ⟨congrArg TypeId.mk h.size_eq, of_reads hbuilt ?_ ?_⟩
      · rw [append_size, TypeStore.size_push, h.size_eq]
      refine h.kept.append_reads hk hp (fun t ht => ?_) ?_ ?_
      · rw [TypeStore.grows_push.node_eq (h.has_iff.mp ht), h.node_eq,
          TypeStore.grows_push.summary_eq (h.has_iff.mp ht), h.summary_eq]
        exact ⟨rfl, rfl⟩
      · rw [TypeStore.node_push, if_pos h.size_eq]
      · rw [TypeStore.summary_push, if_pos h.size_eq, h.summary_eq]

/-- One more type of a store is added to a layout that holds the types before it: it is
new to the layout, and some constructor makes it. -/
theorem grow_step (hs : s.WellFormed) (hl : l.Kept) (hhas : s.Has ⟨l.items.size⟩)
    (hreads : ∀ t, l.Has t → l.node t = s.node t ∧ l.summary t = s.summary t)
    (hr : ∀ slot, s.node ⟨l.items.size⟩ ≠ .atom (.reserved slot)) :
    ∃ l', Built l l' ∧ l'.items.size = l.items.size + 1 ∧
      ∀ t, l'.Has t → l'.node t = s.node t ∧ l'.summary t = s.summary t := by
  have hfresh : ∀ t, l.Has t → l.node t ≠ s.node ⟨l.items.size⟩ := by
    intro t ht heq
    rw [(hreads t ht).1] at heq
    have hthas : s.Has t := Nat.lt_trans ht hhas
    obtain rfl := hs.node_injective hthas hhas heq
    exact absurd ht (Nat.lt_irrefl l.items.size)
  have hp : ∀ p, s.node ⟨l.items.size⟩ ≠ .atom (.prim p) := fun p hn =>
    hfresh _ (hl.has_primitive p) ((hl.prim p).trans hn.symm)
  have hargs : ∀ a ∈ (s.node ⟨l.items.size⟩).args, l.Has a := fun a ha => hs.args_lt ha
  obtain ⟨c, hc⟩ := exists_make (fun f args => hs.takes) hp hr
  have hnext : Built l (c.run l).2 := (Built.nil l).make hc hargs
  obtain ⟨k, hk, rfl, -⟩ := make?_eq_some hc
  have hnone : l.handles[k]? = none := by
    rw [Option.eq_none_iff_forall_ne_some]
    intro t ht
    obtain ⟨hthas, hkey⟩ := hl.handle_iff.mp ht
    exact hfresh t hthas (Node.key?_injective hkey hk)
  rw [find_of_none hnone] at hnext
  refine ⟨l.append k, hnext, append_size, hl.append_reads hk hp hreads rfl ?_⟩
  rw [hs.summary_node]
  cases hn : s.node ⟨l.items.size⟩ with
  | atom a => rfl
  | app f args =>
      have hmap : args.map s.summary = args.map l.summary := List.map_congr_left fun a ha =>
        (hreads a (hargs a (by simpa [hn, Node.args] using ha))).2.symm
      simp only [Node.summary, hmap]

/-- Whatever types were added to a store, constructor calls add them to the layout. -/
theorem grow (h : l.Holds s) (hs : s'.WellFormed) (hg : TypeStore.Grows s s')
    (hnew : ∀ t slot, ¬ s.Has t → s'.Has t → s'.node t ≠ .atom (.reserved slot)) :
    ∃ l', Built l l' ∧ l'.Holds s' := by
  have hupto : ∀ i, s.size ≤ i → i ≤ s'.size → ∃ m, Built l m ∧ m.items.size = i ∧
      ∀ t, m.Has t → m.node t = s'.node t ∧ m.summary t = s'.summary t := by
    intro i hi
    induction i, hi using Nat.le_induction with
    | base =>
        intro _
        refine ⟨l, .nil l, h.size_eq, fun t ht => ?_⟩
        have hhas : s.Has t := h.has_iff.mp ht
        rw [h.node_eq, h.summary_eq, hg.node_eq hhas, hg.summary_eq hhas]
        exact ⟨rfl, rfl⟩
    | succ i hle ih =>
        intro hlt
        obtain ⟨m, hbuilt, rfl, hreads⟩ := ih (Nat.le_of_succ_le hlt)
        have hm : m.Kept := (hbuilt.kept_extends h.kept).1
        obtain ⟨m', hbuilt', hsize, hreads'⟩ := grow_step hs hm hlt hreads
          fun slot => hnew _ slot (Nat.not_lt.mpr hle) hlt
        exact ⟨m', hbuilt.trans hbuilt', hsize, hreads'⟩
  obtain ⟨l', hbuilt, hsize, hreads⟩ := hupto s'.size hg.size_le (Nat.le_refl _)
  exact ⟨l', hbuilt, of_reads (h.built.trans hbuilt) hsize hreads⟩

end Holds

/-- The first layout holds the first store. -/
theorem new_holds : new.Holds .new := by
  have hsize : new.items.size = TypeStore.new.size := by decide +kernel
  exact .of_reads (.nil new) hsize fun _ ht => new_reads ht

end Layout

namespace TypeStore

/-- Called on a layout and on the store that it holds, a constructor gives the same handle
in both, and the layout holds the store afterwards.  The store has the node at that handle
whatever is done to it, and on the layout the accessors give back what the constructor was
given, whatever is built onto it. -/
structure Constructs (l : Layout) (s : TypeStore) (c : StateM Layout TypeId)
    (m : StateM TypeStore TypeId) (n : Node) (reads : Layout → TypeId → Prop) : Prop where
  same : (c.run l).1 = (m.run s).1
  holds : (c.run l).2.Holds (m.run s).2
  makes : s.Makes m n
  reads : ∀ l', Layout.Built (c.run l).2 l' → reads l' (c.run l).1


/-- A constructor of the layout does what interning its node does to the store. -/
theorem constructs {l : Layout} {s : TypeStore} (hl : l.Holds s) (hs : s.Intact) {n : Node} {c : StateM Layout TypeId}
    {reads : Layout → TypeId → Prop} (hc : Layout.make? n = some c) (hn : s.Admits n)
    (hreads : ∀ (x : Layout) t, x.node t = n → reads x t) :
    Constructs l s c (intern n) n reads := by
  obtain ⟨hsame, hholds⟩ := hl.make hs.wellFormed hc hn.args
  have hmade := hs.intern_safely hn
  refine ⟨hsame, hholds, hmade.makes, fun l' hbuilt => hreads l' _ ?_⟩
  have hhas : (c.run l).2.Has (c.run l).1 := by
    rw [hholds.has_iff, hsame]
    exact hmade.2.2.1
  rw [(hbuilt.kept_extends hholds.kept).2.node_eq hholds.kept hhas, hholds.node_eq, hsame]
  exact hmade.2.2.2

/-- **Every type is kept once, and its handle says what it is.**  For every store that
work of any kind leads to from the first one there is a layout that constructor calls have
built and that holds its types, and of every such layout this is true.

Each handle has an item and a summary, which is worked out from the summaries of its
arguments, and the arguments have smaller handles.  Handles are equal exactly when they are
written as the same tree.  A constructor gives the same handle in the layout and in the
store, and from it the accessors give back what the constructor was given, for any number
of arguments.  And whatever is done to the store next, constructor calls on this layout
follow it, and every handle keeps its kind, its words, its summary and its tree. -/
theorem Run.interned {s : TypeStore} (h : Run new s) :
    (∃ l : Layout, l.Holds s) ∧ ∀ l : Layout, l.Holds s →
      (l.items.size = s.size ∧ l.summaries.size = s.size) ∧
      (∀ t, l.Has t → l.summary t = (l.node t).summary l.summary ∧
        ∀ a ∈ (l.node t).args, a.index < t.index) ∧
      (∀ t u, l.Has t → l.Has u → (s.written t = s.written u ↔ t = u)) ∧
      (∀ t, l.Has t →
        (∀ b, Constructs l s (Layout.refTo b t) (refTo b t) (.app (.ref b) [t])
          fun x r => x.kind r = .ref b ∧ x.inner r = t) ∧
        Constructs l s (Layout.sliceOf t) (sliceOf t) (.app .slice [t])
          (fun x r => x.kind r = .slice ∧ x.inner r = t) ∧
        ∀ length, Constructs l s (Layout.arrayOf t length) (arrayOf t length) (.app (.array length) [t])
          fun x r => x.kind r = .array ∧ x.arrayElem r = t ∧ x.arrayLength r = length) ∧
      (∀ name args, (∀ a ∈ args, l.Has a) →
        Constructs l s (Layout.nominalType name args) (nominalType name args) (.app (.nominal name) args)
          fun x r => x.kind r = .nominal ∧ x.nominalName r = name ∧ x.nominalArgs r = args) ∧
      (∀ traitName, Constructs l s (Layout.objectOf traitName) (objectOf traitName)
        (.atom (.object traitName)) fun x r => x.kind r = .object ∧ x.objectTrait r = traitName) ∧
      ∀ s', Run s s' → (∃ l', Layout.Built l l' ∧ l'.Holds s') ∧
        ∀ l', Layout.Built l l' → l'.Holds s' → ∀ t, l.Has t →
          l'.Has t ∧ l'.kind t = l.kind t ∧ l'.word t = l.word t ∧ l'.payload t = l.payload t ∧
          l'.summary t = l.summary t ∧ l'.node t = l.node t ∧ s'.written t = s.written t := by
  obtain ⟨hs, hgrows⟩ := h.intact_grows new_intact
  have hfurther := h.furthers new_knowsSlots
  refine ⟨?_, fun l hl => ⟨⟨hl.size_eq, ?_⟩, fun t _ => ?_, fun t u ht hu => ?_, fun t ht => ?_,
    fun name args hargs => ?_, fun traitName => ?_, fun s' hrun => ⟨?_, fun l' hbuilt hl' t ht => ?_⟩⟩⟩
  · obtain ⟨l, -, hl⟩ := Layout.new_holds.grow hs.wellFormed hgrows fun _ _ => hfurther.node_ne
    exact ⟨l, hl⟩
  · rw [hl.kept.summaries_size, hl.size_eq]
  · rw [hl.node_eq, hl.summary_eq]
    exact ⟨hs.wellFormed.summary_node t, fun a => hs.wellFormed.args_lt⟩
  · have hinj := hs.wellFormed.written_injective (hl.has_iff.mp ht) (hl.has_iff.mp hu)
    exact ⟨hinj, fun heq => by rw [heq]⟩
  · have hone : ∀ a ∈ [t], s.Has a := by simpa using hl.has_iff.mp ht
    refine ⟨fun b => constructs hl hs rfl (.app hone rfl) fun x r hn => ?_,
      constructs hl hs rfl (.app hone rfl) fun x r hn => ?_,
      fun length => constructs hl hs rfl (.app hone rfl) fun x r hn => ?_⟩
    · have hk := Layout.kind_of_node hn rfl
      simpa [Layout.node, hk, Node.kind, Former.kind] using hn
    · have hk := Layout.kind_of_node hn rfl
      simpa [Layout.node, hk, Node.kind, Former.kind] using hn
    · have hk := Layout.kind_of_node hn rfl
      simpa [Layout.node, hk, Node.kind, Former.kind, and_comm] using hn
  · have hhas : ∀ a ∈ args, s.Has a := fun a ha => hl.has_iff.mp (hargs a ha)
    refine constructs hl hs rfl (.app hhas trivial) fun x r hn => ?_
    have hk := Layout.kind_of_node hn rfl
    simpa [Layout.node, hk, Node.kind, Former.kind] using hn
  · refine constructs hl hs rfl (.atom (by simp) (by simp)) fun x r hn => ?_
    have hk := Layout.kind_of_node hn rfl
    simpa [Layout.node, hk, Node.kind, Atom.kind] using hn
  · obtain ⟨hs', hg⟩ := hrun.intact_grows hs
    obtain ⟨l', hbuilt, hl'⟩ := hl.grow hs'.wellFormed hg
      fun _ _ => (hrun.furthers (hfurther.knowsSlots new_knowsSlots)).node_ne
    exact ⟨l', hbuilt, hl'⟩
  · obtain ⟨hs', hg⟩ := hrun.intact_grows hs
    have hext := (hbuilt.kept_extends hl.kept).2
    exact ⟨hext.has ht, hext.kind_eq ht, hext.word_eq ht, hext.payload_eq hl.kept ht,
      hext.summary_eq hl.kept ht, hext.node_eq hl.kept ht,
      hs.wellFormed.written_grows hs'.wellFormed hg (hl.has_iff.mp ht)⟩

/-- A variable is carried over under a checkpoint, and a nominal type is made of an array and
a primitive type.  Reverting to another checkpoint and opening a new one leaves the words of
the nominal type where they are. -/
theorem interned_carried_variable :
    let other := newVar.run new
    let carried := ((carryFrom other.2 other.1).run (checkpoint.run new).2).2
    let s := (arrayOf (.ofPrimitive .u8) 3).run carried
    let args := [s.1, .ofPrimitive .bool]
    let r := (nominalType ⟨7⟩ args).run s.2
    Run new s.2 ∧ ∃ l : Layout, l.Holds (checkpoint.run ((revert ⟨7⟩).run r.2).2).2 ∧
      l.nominalName r.1 = ⟨7⟩ ∧ l.nominalArgs r.1 = args := by
  intro other carried s args r
  have hother : Run new other.2 := (Run.nil new).act .var (by simp [Action.types])
  have hvar : other.2.Has other.1 := new_intact.newVar_safely.2.2
  have hcarried : Run new carried := (Run.nil new).checkpoint.carry hother hvar
  have hprim : ∀ p, carried.Has (.ofPrimitive p) := fun p =>
    (hcarried.intact_grows new_intact).2.has (by cases p <;> decide)
  have hs : Run new s.2 := hcarried.act (.array (.ofPrimitive .u8) 3) (by simp [Action.types, hprim])
  have hbyte : ∀ a ∈ [TypeId.ofPrimitive .u8], carried.Has a := by simp [hprim]
  have harray := (hcarried.intact_grows new_intact).1.app_safely (f := .array 3) hbyte rfl
  have hargs : ∀ a ∈ args, s.2.Has a :=
    List.forall_mem_cons.mpr ⟨harray.2.2.1, List.forall_mem_singleton.mpr (harray.2.1.has (hprim .bool))⟩
  -- stated of any store, so that the one at hand is not computed
  have hmakes : ∀ m : TypeStore, Run new m → (∀ a ∈ args, m.Has a) →
      Run new ((nominalType ⟨7⟩ args).run m).2 := fun m hm ha => hm.act (.nominal ⟨7⟩ args) ha
  have hr : Run new r.2 := hmakes s.2 hs hargs
  obtain ⟨⟨l, hl⟩, hall⟩ := hs.interned
  obtain ⟨-, -, -, -, hnominal, -, -⟩ := hall l hl
  have hmade := hnominal ⟨7⟩ args fun a ha => hl.has_iff.mpr (hargs a ha)
  obtain ⟨-, -, -, -, -, -, hlater⟩ := hr.interned.2 _ hmade.holds
  obtain ⟨⟨l', hbuilt, hl'⟩, -⟩ := hlater _ ((Run.nil r.2).revert ⟨7⟩).checkpoint
  obtain ⟨-, hname, hread⟩ := hmade.same ▸ hmade.reads l' hbuilt
  exact ⟨hs, l', hl', hname, hread⟩

end TypeStore

end DotCall
