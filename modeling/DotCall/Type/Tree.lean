import DotCall.Type.Store
import DotCall.SymbolTable

/-!
# Types as trees

A handle means a finite tree.  Its meaning is read through the links of
variables, so it shows the type as far as inference knows it, and the printed
form of a type is the printed form of its meaning.
-/

namespace DotCall

/-- A whole type. -/
inductive Tree where
  | atom (a : Atom)
  | app (former : Former) (args : List Tree)

namespace TypeStore

/-- The variable that a handle is, and the type that it is linked to. -/
def link? (s : TypeStore) (t : TypeId) : Option (Nat × TypeId) :=
  match s.node t with
  | .atom (.var id) =>
    match s.binding id with
    | .linked target => some (id, target)
    | _ => none
  | _ => none

/-- Follow at most `n` links. -/
def follow (s : TypeStore) : Nat → TypeId → TypeId
  | 0, t => t
  | n + 1, t =>
    match s.link? t with
    | some (_, target) => s.follow n target
    | none => t

/-- The type at the end of the links.  Links that do not run in a circle pass
each handle at most once, so the number of types bounds their number. -/
def root (s : TypeStore) (t : TypeId) : TypeId := s.follow s.size t

/-- The tree below a handle, cut off at depth `n`; `read` says which handle
to look at in place of a given one. -/
def treeWithin (s : TypeStore) (read : TypeId → TypeId) : Nat → TypeId → Tree
  | 0, _ => .atom (.prim .error)
  | n + 1, t =>
    match s.node (read t) with
    | .atom a => .atom a
    | .app f args => .app f (args.map (s.treeWithin read n))

/-- The tree of a handle, read through the links of variables.  On the way down
no handle comes twice, so the number of types bounds the depth. -/
def meaning (s : TypeStore) (t : TypeId) : Tree :=
  s.treeWithin s.root (s.size + 1) t

end TypeStore

/-- How names and variables are written. -/
structure Spelling where
  name : Symbol → String
  var : Nat → String
  generic : Nat → String

/-- The printed form of an atom; impl parameters are written `_`. -/
def Atom.text (sp : Spelling) : Atom → String
  | .prim p => p.text
  | .reserved _ => Primitive.error.text
  | .object n => "dyn " ++ sp.name n
  | .var id => sp.var id
  | .param _ => "_"
  | .generic id => sp.generic id

/-- The printed form of a former around the printed forms of its arguments. -/
def Former.text (sp : Spelling) (args : List String) : Former → String
  | .ref b => b.text ++ String.join args
  | .slice => "[" ++ String.join args ++ "]"
  | .array length => "[" ++ String.join args ++ "; " ++ toString length ++ "]"
  | .nominal n =>
    if args.isEmpty then sp.name n
    else sp.name n ++ "<" ++ ", ".intercalate args ++ ">"

mutual

/-- The printed form of a tree. -/
def Tree.text (sp : Spelling) : Tree → String
  | .atom a => a.text sp
  | .app f args => f.text sp (Tree.texts sp args)

/-- The printed forms of several trees. -/
def Tree.texts (sp : Spelling) : List Tree → List String
  | [] => []
  | t :: ts => t.text sp :: Tree.texts sp ts

end

namespace TypeStore

/-- Free variables are written by their name or as `?` and their number. -/
def varText (s : TypeStore) (names : SymbolTable) (id : Nat) : String :=
  match s.binding id with
  | .free _ (some name) => names.text name
  | .free id none => "?" ++ toString id
  | .linked _ | .generic _ => "?"

/-- Generic parameters are written by their name. -/
def genericText (s : TypeStore) (names : SymbolTable) (id : Nat) : String :=
  match s.binding id with
  | .generic name => names.text name
  | .free _ _ | .linked _ => "?"

/-- The spelling that a store and a symbol table give. -/
def spelling (s : TypeStore) (names : SymbolTable) : Spelling where
  name := names.text
  var := s.varText names
  generic := s.genericText names

/-- A type as it would be written in source. -/
def typeText (s : TypeStore) (names : SymbolTable) (t : TypeId) : String :=
  (s.meaning t).text (s.spelling names)

end TypeStore

end DotCall
