/-!
# Symbols

A symbol stands for a text that is kept once in a symbol table.  It is a single
32-bit word: the top four bits say in which of the sixteen shards of the table
the text is kept, the low 28 bits at which place of that shard.  Comparing two
symbols compares two words.
-/

namespace DotCall

/-- A 32-bit word that stands for a text. -/
structure Symbol where
  word : UInt32
  deriving DecidableEq, Hashable, Inhabited

namespace Symbol

/-- The symbol of the empty text: place 0 of shard 0. -/
def blank : Symbol := ⟨0⟩

/-- The low 28 bits, which hold the place. -/
def placeMask : UInt32 := 0x0FFFFFFF

/-- The symbol of place `place` in shard `shard`. -/
def pack (shard place : UInt32) : Symbol :=
  ⟨(shard <<< 28) ||| place⟩

/-- The shard that a symbol points into. -/
def shard (n : Symbol) : Fin 16 :=
  Fin.ofNat 16 (n.word >>> 28).toNat

/-- The place within its shard that a symbol points at. -/
def place (n : Symbol) : Nat :=
  (n.word &&& placeMask).toNat

/-- How a symbol is shown where the table is not at hand. -/
def codeText (n : Symbol) : String :=
  s!"Name(shard={n.shard.val}, local={n.place})"

end Symbol

end DotCall
