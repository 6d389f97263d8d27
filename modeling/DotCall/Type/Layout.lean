import DotCall.Type.Summary
import Std.Data.HashMap

/-!
# Types laid out in words

The types of a store are laid out in three arrays.  An item is the kind of a type and
one word; the summaries stand in an array of their own, beside the items; and what
does not fit into the word, the length of an array and the arguments of a nominal
type, stands in an array of words that all types share.  There the word of the item
says where it begins, and for a nominal type how long it is stands with it.

So a type is known by its position alone, and all that can be asked of it is worked
out from these words by the accessors below.
-/

namespace DotCall

/-- A type as it is stored.  The word is the handle of an argument, the name of a trait,
the number of a variable or the position of a parameter, and for a kind that needs more
than that the place of its first word in the shared array. -/
structure Item where
  kind : Kind
  word : Nat
  deriving DecidableEq

/-- What a type is looked up by: its kind with the word of its item or, when it needs
more, with all the words that it has in the shared array.  Where those words begin is
left out, so the same type is found again wherever it was put. -/
inductive ItemKey where
  | inline (kind : Kind) (word : Nat)
  | payload (kind : Kind) (words : List Nat)
  deriving DecidableEq, Hashable

/-- The arrays, and the handle of every type that was made by a constructor.  Nothing
ties the arrays together but the way in which they are filled. -/
structure Layout where
  items : Array Item
  summaries : Array Summary
  extra : Array Nat
  handles : Std.HashMap ItemKey TypeId

namespace Layout

/-- The item of a handle; one beyond the layout reads as a reserved slot. -/
def item (l : Layout) (t : TypeId) : Item := l.items[t.index]?.getD ⟨.prim .error, 0⟩

/-- The kind of a type. -/
def kind (l : Layout) (t : TypeId) : Kind := (l.item t).kind

/-- The word of a type. -/
def word (l : Layout) (t : TypeId) : Nat := (l.item t).word

/-- The summary of a handle. -/
def summary (l : Layout) (t : TypeId) : Summary :=
  l.summaries[t.index]?.getD (Atom.reserved t.index).summary

/-- The word that a type has in the shared array, `offset` places after its first. -/
def extraAt (l : Layout) (t : TypeId) (offset : Nat) : Nat :=
  l.extra[l.word t + offset]?.getD 0

/-- `count` words of the shared array. -/
def words (l : Layout) (start count : Nat) : List Nat :=
  (l.extra.extract start (start + count)).toList

/-- What a reference points at, and what a slice is made of. -/
def inner (l : Layout) (t : TypeId) : TypeId := ⟨l.word t⟩

/-- What an array is made of. -/
def arrayElem (l : Layout) (t : TypeId) : TypeId := ⟨l.extraAt t 0⟩

/-- The length of an array. -/
def arrayLength (l : Layout) (t : TypeId) : Nat := l.extraAt t 1

/-- The name of a nominal type. -/
def nominalName (l : Layout) (t : TypeId) : Symbol := ⟨.ofNat (l.extraAt t 0)⟩

/-- The arguments of a nominal type; how many there are stands after the name. -/
def nominalArgs (l : Layout) (t : TypeId) : List TypeId :=
  (l.words (l.word t + 2) (l.extraAt t 1)).map TypeId.mk

/-- The trait of a trait object. -/
def objectTrait (l : Layout) (t : TypeId) : Symbol := ⟨.ofNat (l.word t)⟩

/-- The position of a parameter. -/
def paramPosition (l : Layout) (t : TypeId) : Nat := l.word t

/-- The number of a variable or of a generic parameter. -/
def variableId (l : Layout) (t : TypeId) : Nat := l.word t

/-- What is known of a type that is about to be stored: what its kind says by itself,
and what it takes over from the summaries of its arguments, which are read off the
same words. -/
def summaryOf (l : Layout) (kind : Kind) (word : Nat) (payload : List Nat) : Summary :=
  match kind with
  | .prim p => p.summary
  | .ref _ => Summary.union { reference := true } (l.summary ⟨word⟩).inherited
  | .slice => Summary.union { unsized := true } (l.summary ⟨word⟩).inherited
  | .array =>
    match payload.head? with
    | some elem => (l.summary ⟨elem⟩).inherited
    | none => .plain
  | .object => { unsized := true }
  | .nominal =>
    Summary.union { nominal := true }
      (.inheritedAll ((payload.drop 2).map fun arg => l.summary ⟨arg⟩))
  | .var => { hasVar := true }
  | .param => { hasParam := true }
  | .generic => { hasGeneric := true }

/-- Append an item and its summary, and the words of it that go to the shared array. -/
def push (l : Layout) (item : Item) (summary : Summary) (payload : List Nat) : Layout :=
  { l with
    items := l.items.push item
    summaries := l.summaries.push summary
    extra := l.extra ++ payload.toArray }

/-- Let the key be found at the handle. -/
def remember (l : Layout) (key : ItemKey) (t : TypeId) : Layout :=
  { l with handles := l.handles.insert key t }

/-- A layout without types. -/
def bare : Layout where
  items := #[]
  summaries := #[]
  extra := #[]
  handles := ∅

/-- Append a primitive type. -/
def pushPrimitive (l : Layout) (p : Primitive) : Layout :=
  (l.push ⟨.prim p, 0⟩ p.summary []).remember (.inline (.prim p) 0) ⟨l.items.size⟩

/-- Append a reserved slot.  No key leads to it. -/
def pushReserved (l : Layout) : Layout :=
  l.push ⟨.prim .error, 0⟩ { hasError := true } []

/-- The layout that every store starts with: the primitive types, then the reserved slots. -/
def new : Layout :=
  (List.range (TypeId.reservedCount - Primitive.all.length)).foldl (fun l _ => l.pushReserved)
    (Primitive.all.foldl pushPrimitive bare)

/-- The handle of a type that needs one word only; it is appended when it is not present yet. -/
def intern (kind : Kind) (word : Nat) : StateM Layout TypeId := fun l =>
  match l.handles[ItemKey.inline kind word]? with
  | some t => (t, l)
  | none =>
    let stored := l.push ⟨kind, word⟩ (l.summaryOf kind word []) []
    (⟨l.items.size⟩, stored.remember (.inline kind word) ⟨l.items.size⟩)

/-- The handle of a type that needs more words; when it is not present yet, they go to
the end of the shared array and its item says where that is. -/
def internWide (kind : Kind) (payload : List Nat) : StateM Layout TypeId := fun l =>
  match l.handles[ItemKey.payload kind payload]? with
  | some t => (t, l)
  | none =>
    let stored := l.push ⟨kind, l.extra.size⟩ (l.summaryOf kind 0 payload) payload
    (⟨l.items.size⟩, stored.remember (.payload kind payload) ⟨l.items.size⟩)

/-- The reference `&t` or `&mut t`. -/
def refTo (b : Borrow) (t : TypeId) : StateM Layout TypeId := intern (.ref b) t.index

/-- The slice `[t]`. -/
def sliceOf (t : TypeId) : StateM Layout TypeId := intern .slice t.index

/-- The array `[t; length]`. -/
def arrayOf (t : TypeId) (length : Nat) : StateM Layout TypeId :=
  internWide .array [t.index, length]

/-- The nominal type `name<args>`. -/
def nominalType (name : Symbol) (args : List TypeId) : StateM Layout TypeId :=
  internWide .nominal (name.word.toNat :: args.length :: args.map (·.index))

/-- The trait object `dyn traitName`. -/
def objectOf (traitName : Symbol) : StateM Layout TypeId := intern .object traitName.word.toNat

/-- The parameter of an impl or a rule at the given position. -/
def paramAt (position : Nat) : StateM Layout TypeId := intern .param position

/-- The type of the variable with the given number. -/
def variableOf (id : Nat) : StateM Layout TypeId := intern .var id

/-- The type of the generic parameter with the given number. -/
def genericOf (id : Nat) : StateM Layout TypeId := intern .generic id

end Layout

end DotCall
