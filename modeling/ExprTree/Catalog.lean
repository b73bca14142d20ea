import ExprTree.Build.Operator
import ExprTree.Callable
import ExprTree.Host.Scripted

/-! A catalog of named declarations, with the store and the scripts that they use. Handles and nodes
are numbered from one counter, and parameters and labels from one each, so no two of a sort share an
id. -/
namespace ExprTree

/-- Entries by name, latest first; a later entry hides an earlier one of its name. -/
abbrev Table (α : Type) := List (String × α)

structure Catalog where
  nextId : Nat := ClassType.firstFreeId
  paramCount : Nat := 0
  labelCount : Nat := 0
  store : Store := {}
  scripts : Scripts := {}
  classes : Table ClassType := []
  params : Table Param := []
  labels : Table Label := []
  methods : Table Method := []
  constructors : Table Constructor := []
  members : Table Member := []
  indexers : Table Indexer := []
  values : Table Value := []
  nodes : Table Node := []

/-- Why there is no result: a factory or a compilation refused, or something named is not known. -/
inductive Refusal where
  | build (e : BuildError)
  | eval (e : EvalError)
  | unknown (what : String)
  deriving Inhabited

/-- Work on a catalog; what was done before a refusal stays done. -/
abbrev Draft := EStateM Refusal Catalog

namespace Draft

variable {α : Type}

def unknown (what : String) : Draft α := throw (.unknown what)

def fresh : Draft Nat := modifyGet fun c => (c.nextId, { c with nextId := c.nextId + 1 })

def onStore (f : Store → α × Store) : Draft α :=
  modifyGet fun c => let (a, store) := f c.store; (a, { c with store })

def built : Build.Result α → Draft α
  | .ok a => pure a
  | .error e => throw (.build e)

def compiled : Except EvalError α → Draft α
  | .ok a => pure a
  | .error e => throw (.eval e)

/-- The entry of a name. -/
def find (table : Catalog → Table α) (name : String) : Draft α := do
  match (table (← get)).lookup name with
  | some a => return a
  | none => unknown name

/-- A declared class, or else a builtin one, with or without the end `Exception` of its name. -/
def findClass (name : String) : Draft ClassType := do
  match (← get).classes.lookup name with
  | some c => return c
  | none => match ClassType.builtin.find? fun c => c.name = name ∨ c.name = name ++ "Exception" with
    | some c => return c
    | none => unknown name

def declareClass (key name : String) (isException : Bool)
    (base : Option ClassType) : Draft Unit := do
  let id ← fresh
  let c := if isException then .declareException id name base else .declare id name base
  modify fun s => { s with classes := (key, c) :: s.classes }

def declareParam (key : String) (name : Option String) (ty : Ty) : Draft Unit := do
  let p ← built (Build.param ((← get).paramCount + 1) name ty)
  modify fun c => { c with paramCount := p.id, params := (key, p) :: c.params }

def declareLabel (key : String) (name : Option String) (ty : Ty) : Draft Unit :=
  modify fun c =>
    let l : Label := ⟨c.labelCount + 1, name, ty⟩
    { c with labelCount := l.id, labels := (key, l) :: c.labels }

private def putMethod (key : String) (m : Method) : Draft Unit :=
  modify fun c => { c with methods := (key, m) :: c.methods }

def declareMethod (key name : String) (params : List Ty) (ret : Ty) (isStatic : Bool)
    (body : Script) : Draft Unit := do
  let id ← fresh
  modify fun c => { c with scripts.methods := (id, name, body) :: c.scripts.methods }
  putMethod key ⟨id, name, params, ret, isStatic, .host⟩

/-- The method that appends to a list. -/
def declareListAdd (key : String) (elem : Ty) : Draft Unit := do
  putMethod key ⟨← fresh, "Add", [elem], .void, false, .addToList⟩

private def putConstructor (key : String) (m : Constructor) : Draft Unit :=
  modify fun c => { c with constructors := (key, m) :: c.constructors }

def declareConstructor (key name : String) (ty : Ty) (params : List Ty)
    (body : Script) : Draft Unit := do
  let id ← fresh
  modify fun c => { c with scripts.constructors := (id, name, body) :: c.scripts.constructors }
  putConstructor key ⟨id, ty, params, .host⟩

def declareListConstructor (key : String) (elem : Ty) : Draft Unit := do
  putConstructor key ⟨← fresh, .list elem, [], .list elem⟩

/-- The constructor that takes the fields of a new object. -/
def declareObjectConstructor (key : String) (cls : ClassType) (fields : List (String × Ty)) :
    Draft Unit := do
  putConstructor key ⟨← fresh, .cls cls, fields.map (·.2), .object cls (fields.map (·.1))⟩

private def putMember (key : String) (m : Member) : Draft Unit :=
  modify fun c => { c with members := (key, m) :: c.members }

def declareField (key name : String) (ty : Ty) (canWrite : Bool) : Draft Unit := do
  putMember key ⟨← fresh, name, ty, false, canWrite, .field⟩

/-- A new static slot, of zero unless a value is given. -/
private def newSlot (ty : Ty) (init : Option Value) : Draft Nat :=
  onStore (·.newStatic (init.getD (.zero ty)))

def declareStatic (key name : String) (ty : Ty) (init : Option Value) : Draft Unit := do
  putMember key ⟨← fresh, name, ty, true, true, .static (← newSlot ty init)⟩

/-- A static property has a slot of its own. -/
def declareProperty (key name : String) (ty : Ty) (isStatic canWrite : Bool) (init : Option Value) :
    Draft Unit := do
  let id ← fresh
  let cell ← if isStatic then some <$> newSlot ty init else pure none
  modify fun c => { c with scripts.properties := (id, ⟨name, ty, cell⟩) :: c.scripts.properties }
  putMember key ⟨id, name, ty, isStatic, canWrite, .property⟩

def declareIndexer (key name : String) (item : Ty) (params : List Ty)
    (canWrite : Bool) : Draft Unit := do
  let id ← fresh
  modify fun c => { c with
    scripts.indexers := (id, ⟨name, item⟩) :: c.scripts.indexers
    indexers := (key, ⟨id, name, item, params, canWrite⟩) :: c.indexers }

def declareValue (key : String) (v : Value) : Draft Unit :=
  modify fun c => { c with values := (key, v) :: c.values }

def declareNode (key : String) (n : Node) : Draft Unit :=
  modify fun c => { c with nodes := (key, n) :: c.nodes }

/-- A delegate of the host that follows a script. -/
def scriptedDelegate (sig : Signature) (body : Script) : Draft Value := do
  let id ← fresh
  modify fun c => { c with scripts.delegates := (id, body) :: c.scripts.delegates }
  onStore (·.newDelegate sig (.host id))

/-- A delegate of a lambda without a limit. -/
def delegate (f : Lambda) : Draft Value := do
  onStore (← compiled (Callable.compile f none)).toDelegate

/-- Evaluates from a state on the catalog's own store, with an empty log. -/
def perform (depth : Nat) (s : State) (m : Evaluator → Eval α) :
    Draft (Except Signal α × State) := do
  let c ← get
  match (m (evaluator c.scripts.host depth)).run
      { s with store := { c.store with log := .empty } } with
  | some (r, s) =>
    modify fun c => { c with store := s.store }
    return (r, s)
  | none => unknown "the outcome"

end Draft

/-- The entries in order of declaration, without the hidden ones. -/
def Table.visible {α : Type} (t : Table α) : Table α :=
  t.foldr (fun (name, a) earlier => earlier.filter (·.1 ≠ name) ++ [(name, a)]) []

end ExprTree
