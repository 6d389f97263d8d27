import DotCall.Ascending
import DotCall.Call.DerefChain

/-!
# Gathering candidates

For a method name and the steps of a receiver, every definition that could be
meant is gathered: first the methods that trait objects and bounded generic
parameters have by themselves, then those of impls, in the order of their
numbers.  Functions of the name that are no methods are kept aside for the
report of a failure.
-/

namespace DotCall

open TypeStore

/-- A definition of the name sought. -/
inductive Definition where
  | method (c : Candidate)
  /-- a function without a `self` parameter -/
  | function (origin : Origin)
  deriving DecidableEq

namespace Definition

/-- The definition as an inherent candidate. -/
def inherent? : Definition → Option Candidate
  | .method c => if c.standing = .inherent then some c else none
  | .function _ => none

/-- The definition as an extension candidate. -/
def extension? : Definition → Option Candidate
  | .method c => if c.standing = .inherent then none else some c
  | .function _ => none

/-- The origin of a definition that is no method. -/
def function? : Definition → Option Origin
  | .method _ => none
  | .function origin => some origin

end Definition

/-- Candidates by precedence, and the functions of the name. -/
structure Gathering where
  inherent : List Candidate
  extension : List Candidate
  functions : List Origin
  deriving DecidableEq

namespace Gathering

/-- Sort out definitions, each sort in the given order. -/
def ofDefinitions (definitions : List Definition) : Gathering where
  inherent := definitions.filterMap Definition.inherent?
  extension := definitions.filterMap Definition.extension?
  functions := definitions.filterMap Definition.function?

/-- Number of candidates. -/
def size (g : Gathering) : Nat := g.inherent.length + g.extension.length

/-- There is no candidate. -/
def isEmpty (g : Gathering) : Bool := g.inherent.isEmpty && g.extension.isEmpty

end Gathering

/-- A method that a type has through a trait, without an impl. -/
structure Offer where
  origin : Origin
  self : TypeId
  passing? : Option Passing
  deriving DecidableEq

/-- The definition that an offer is. -/
def Offer.accept (method : Symbol) (offer : Offer) : StateM TypeStore Definition :=
  match offer.passing? with
  | some passing => do
    let c ← Candidate.make offer.origin .inherent method passing offer.self 0
    pure (.method c)
  | none => pure (.function offer.origin)

/-- The standing of an impl's methods; an impl of a trait that is not in scope
has none. -/
def ImplDecl.standing? (decl : ImplDecl) (visible : List TraitId) : Option Standing :=
  match decl.trait? with
  | none => some .inherent
  | some t => if t ∈ visible then some (.extension t) else none

/-- The self type of an impl unifies with the type `t`. -/
def ImplDecl.selfFits (decl : ImplDecl) (t : TypeId) : StateM TypeStore Bool :=
  tentatively do
    let args ← newVars decl.arity
    let self ← instantiate decl.self args
    unifies self t

namespace Resolver

/-- The traits whose methods the type `t` has by itself, and the origin of such
a method: the trait of a trait object, the bounds of a generic parameter. -/
def ownTraits (r : Resolver) (s : TypeStore) (t : TypeId) :
    List TraitId × (TraitId → Origin) :=
  match s.node t with
  | .atom (.object name) =>
    (if r.settings.objectMethods then (r.db.traitNamed? name).toList else [], .object)
  | .atom (.generic _) =>
    (if r.settings.boundMethods then r.bounds.on t else [], .bound)
  | _ => ([], .bound)

/-- The methods of the name that the type `t` has by itself. -/
def offers (r : Resolver) (method : Symbol) (s : TypeStore) (t : TypeId) : List Offer :=
  let (traits, origin) := r.ownTraits s t
  (traits.flatMap r.db.lineage).filterMap fun traitId =>
    (r.db.methodOfTrait? traitId method).map fun m => ⟨origin traitId, t, m.passing?⟩

/-- The definitions that the step types have by themselves.  One that is
reached in several ways counts once. -/
def gatherOffers (r : Resolver) (method : Symbol) (steps : List Step) :
    StateM TypeStore (List Definition) := do
  let types ← steps.mapM fun step => findRoot step.ty
  let s ← get
  (types.flatMap (r.offers method s)).eraseDups.mapM (Offer.accept method)

/-- The impls that can match a step or a borrow of one, in the order of their
numbers. -/
def relevantImpls (r : Resolver) (s : TypeStore) (steps : List Step) : List ImplId :=
  let heads := [some (.ref .shared), some (.ref .mutable)] ++ steps.map (fun step => s.head? step.ty)
  Ascending.ofList (heads.eraseDups.flatMap r.db.implsFor)

/-- The definition of the name that an impl contributes. -/
def gatherImpl (r : Resolver) (method : Symbol) (steps : List Step) (visible : List TraitId)
    (id : ImplId) : StateM TypeStore (Option Definition) :=
  match r.db.impl? id, r.db.methodOfImpl? id method with
  | some decl, some m =>
    match decl.standing? visible, m.passing? with
    | none, _ => pure none
    | some standing, some passing => do
      let c ← Candidate.make (.impl id) standing method passing decl.self decl.arity
      if ← c.fitsAny steps then pure (some (.method c)) else pure none
    | some _, none => do
      if ← steps.anyM fun step => decl.selfFits step.ty then
        pure (some (.function (.impl id)))
      else pure none
  | _, _ => pure none

/-- Gather the definitions of a method name for the given steps. -/
def gather (r : Resolver) (method : Symbol) (steps : List Step) (visible : List TraitId) :
    StateM TypeStore Gathering := do
  let own ← r.gatherOffers method steps
  let impls := r.relevantImpls (← get) steps
  let found ← impls.mapM (r.gatherImpl method steps visible)
  pure (.ofDefinitions (own ++ found.filterMap id))

/-- The trait that would have to be in scope for an impl's method to apply;
traits that are known already are passed over. -/
def traitToImport? (r : Resolver) (method : Symbol) (steps : List Step) (known : List TraitId)
    (id : ImplId) : StateM TypeStore (Option TraitId) :=
  match (r.db.impl? id).bind fun decl => decl.trait?.map (decl, ·) with
  | none => pure none
  | some (decl, t) =>
    if t ∈ known then pure none
    else match (r.db.methodOfTrait? t method).bind (·.passing?) with
      | none => pure none
      | some passing => do
        let c ← Candidate.make (.impl id) (.extension t) method passing decl.self decl.arity
        if ← c.fitsAny steps then pure (some t) else pure none

/-- Traits out of scope that would have supplied an applicable method, in the
order of their numbers. -/
def traitsToImport (r : Resolver) (method : Symbol) (steps : List Step)
    (visible : List TraitId) : StateM TypeStore (List TraitId) := do
  let impls := r.relevantImpls (← get) steps
  impls.foldlM (fun found id => do
    match ← r.traitToImport? method steps (visible ++ found) id with
    | some t => pure (Ascending.insert t found)
    | none => pure found) []

end Resolver

end DotCall
