import DotCall.Symbol
import Std.Data.HashMap

/-!
# The symbol table

Texts are kept in sixteen shards.  The shard of a text depends only on its
first eight bytes, so a text is always sought where it was put, and a text
already present is found again instead of being stored twice.  A new text for a
shard in which every place is taken is refused.

A shard keeps its texts in an array, which a symbol is read from, and beside it
the place of each text in a map, which a text is looked up in.
-/

namespace DotCall

/-- The texts of a shard in the order in which they came, and the place of each by
its text. -/
structure SymbolShard where
  texts : Array String
  places : Std.HashMap String Nat

namespace SymbolShard

/-- A shard without texts. -/
def empty : SymbolShard := ⟨#[], ∅⟩

/-- The shard with one more text at its end. -/
def push (kept : SymbolShard) (text : String) : SymbolShard :=
  ⟨kept.texts.push text, kept.places.insert text kept.texts.size⟩

end SymbolShard

/-- Sixteen shards of texts; the place of a text in its shard never changes. -/
structure SymbolTable where
  shards : Vector SymbolShard 16

namespace SymbolTable

/-- A new table holds the empty text only, as `Symbol.blank`. -/
def new : SymbolTable :=
  ⟨(Vector.replicate 16 .empty).set 0 (SymbolShard.empty.push "")⟩

instance : Inhabited SymbolTable := ⟨new⟩

/-- A wrapping 32-bit polynomial in the first eight bytes of a text. -/
def shardHash (text : String) : UInt32 :=
  (text.toUTF8.toList.take 8).foldl (fun h byte => h * 31 + byte.toUInt32) 0

/-- The shard in which a text is kept. -/
def shardOf (text : String) : Fin 16 :=
  ⟨(shardHash text).toNat % 16, Nat.mod_lt _ (by decide)⟩

/-- Where the map of its shard says that a text stands. -/
def place? (table : SymbolTable) (text : String) : Option Nat :=
  table.shards[shardOf text].places[text]?

/-- The symbol of a text, which goes to the end of its shard when it is new. -/
def intern (table : SymbolTable) (text : String) : Symbol × SymbolTable :=
  let shard := shardOf text
  match table.place? text with
  | some place => (.pack shard.val.toUInt32 place.toUInt32, table)
  | none =>
    let kept := table.shards[shard]
    (.pack shard.val.toUInt32 kept.texts.size.toUInt32,
      ⟨table.shards.set shard (kept.push text)⟩)

/-- A shard in which every place that a symbol can point at is taken. -/
structure ShardOverflow where
  shard : Fin 16
  count : Nat
  deriving DecidableEq

/-- How a full shard is reported. -/
def ShardOverflow.message (e : ShardOverflow) : String :=
  s!"interner shard {e.shard.val} exceeded capacity: {e.count} strings, max is {Symbol.placeMask}"

/-- Intern a text, unless it is new and its shard is full. -/
def tryIntern (table : SymbolTable) (text : String) :
    Except ShardOverflow (Symbol × SymbolTable) :=
  let count := table.shards[shardOf text].texts.size
  if (table.place? text).isSome ∨ count ≤ Symbol.placeMask.toNat then
    .ok (table.intern text)
  else .error ⟨shardOf text, count⟩

/-- The text of a symbol; one that was never handed out reads `<unknown>`. -/
def text (table : SymbolTable) (n : Symbol) : String :=
  table.shards[n.shard].texts[n.place]?.getD "<unknown>"

end SymbolTable

end DotCall
