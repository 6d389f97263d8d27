import DotCall.Type.Node

/-!
# Summaries of types

A summary holds facts about a type that are worked out once, when the type
enters a store.  Four of them say what occurs anywhere inside the type and pass
from the arguments of a former to the whole; the other four describe the
outermost layer only.
-/

namespace DotCall

/-- What occurs in a type, and what its outermost layer is. -/
structure Summary where
  hasVar : Bool := false
  hasParam : Bool := false
  hasGeneric : Bool := false
  hasError : Bool := false
  primitive : Bool := false
  reference : Bool := false
  unsized : Bool := false
  nominal : Bool := false
  deriving DecidableEq, Inhabited

namespace Summary

/-- Nothing is known to occur. -/
def plain : Summary := {}

/-- A fact is in the union when it is in either part. -/
def union (a b : Summary) : Summary where
  hasVar := a.hasVar || b.hasVar
  hasParam := a.hasParam || b.hasParam
  hasGeneric := a.hasGeneric || b.hasGeneric
  hasError := a.hasError || b.hasError
  primitive := a.primitive || b.primitive
  reference := a.reference || b.reference
  unsized := a.unsized || b.unsized
  nominal := a.nominal || b.nominal

/-- The facts that a compound type takes over from one argument. -/
def inherited (f : Summary) : Summary where
  hasVar := f.hasVar
  hasParam := f.hasParam
  hasGeneric := f.hasGeneric
  hasError := f.hasError

/-- The facts that a compound type takes over from all its arguments. -/
def inheritedAll (args : List Summary) : Summary :=
  args.foldl (fun acc f => acc.union f.inherited) plain

/-- A summary as a bit set: what occurs inside from bit 0 on, the outermost
layer from bit 8 on. -/
def toBits (f : Summary) : Nat :=
  f.hasVar.toNat * 1 + f.hasParam.toNat * 2 + f.hasGeneric.toNat * 4 + f.hasError.toNat * 8 +
  f.primitive.toNat * 256 + f.reference.toNat * 512 + f.unsized.toNat * 1024 +
  f.nominal.toNat * 2048

/-- The summary of a bit set; bits without a meaning are dropped. -/
def ofBits (bits : Nat) : Summary where
  hasVar := bits.testBit 0
  hasParam := bits.testBit 1
  hasGeneric := bits.testBit 2
  hasError := bits.testBit 3
  primitive := bits.testBit 8
  reference := bits.testBit 9
  unsized := bits.testBit 10
  nominal := bits.testBit 11

end Summary

/-- The summary of a primitive type. -/
def Primitive.summary : Primitive → Summary
  | .error => { primitive := true, hasError := true }
  | .str => { primitive := true, unsized := true }
  | _ => { primitive := true }

/-- The summary of an atom. -/
def Atom.summary : Atom → Summary
  | .prim p => p.summary
  | .reserved _ => { hasError := true }
  | .object _ => { unsized := true }
  | .var _ => { hasVar := true }
  | .param _ => { hasParam := true }
  | .generic _ => { hasGeneric := true }

/-- What a former says by itself, whatever its arguments. -/
def Former.summary : Former → Summary
  | .ref _ => { reference := true }
  | .slice => { unsized := true }
  | .array _ => {}
  | .nominal _ => { nominal := true }

/-- The summary of a node, from the summaries of its arguments. -/
def Node.summary (ofArg : TypeId → Summary) : Node → Summary
  | .atom a => a.summary
  | .app f args => f.summary.union (.inheritedAll (args.map ofArg))

end DotCall
