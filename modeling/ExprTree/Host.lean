import ExprTree.Error

/-! The host: what methods, constructors, properties, indexers and delegates of its own do, and from
that what every handle does, those with a built-in body among them. -/
namespace ExprTree

/-- A run of host code. It reads and changes the store, may invoke delegates on its way and go on
with what they end in, and finishes with a value or a signal. -/
inductive Routine where
  | finish (result : Except Signal Value) (store : Store)
  | invoke (f : Value) (args : List Value) (store : Store)
      (resume : Except Signal Value → Store → Routine)

/-- The routine behind each handle, by the handle's id. -/
structure Host where
  method : Nat → Option Value → List Value → Store → Routine
  construct : Nat → List Value → Store → Routine
  get : Nat → Option Value → Store → Routine
  set : Nat → Option Value → Value → Store → Routine
  getItem : Nat → Value → List Value → Store → Routine
  setItem : Nat → Value → List Value → Value → Store → Routine
  delegate : Nat → List Value → Store → Routine

namespace Routine

def pure (v : Value) (s : Store) : Routine := .finish (.ok v) s

def fail (x : Signal) (s : Store) : Routine := .finish (.error x) s

/-- Throws a new exception. -/
def throw (c : ClassType) (message : String) (s : Store) : Routine :=
  let (x, s) := s.newException c message
  fail (.thrown x) s

def ofFault : Fault → Store → Routine
  | .fatal e => fail (.fatal e)
  | .raise c m => throw c m
  | .endless => pure .void

end Routine

namespace Host

variable (h : Host)

/-- A static method is given no receiver and any other needs one. -/
def callMethod (m : Method) (receiver : Option Value) (args : List Value) : Store → Routine :=
  match m.isStatic, receiver with
  | true, _ => h.method m.id none args
  | false, none => .throw .invalidOperation "instance method called without a receiver"
  | false, some r => match m.body with
    | .host => h.method m.id (some r) args
    | .addToList => match r, args with
      | .list _ addr, [item] => fun s => .pure .void (s.pushListItem addr item)
      | .null, _ => .throw .invalidOperation "Add called on a null list"
      | r, _ => .fail (.fatal (.typeMismatch "list" r.sortName))

def callConstructor (c : Constructor) (args : List Value) : Store → Routine :=
  match c.body with
  | .list elem => fun s => let (v, s) := s.newList elem .empty; .pure v s
  | .object cls fields => fun s =>
    let (v, s) := s.newObject cls (Fields.ofList (fields.zip args))
    .pure v s
  | .host => h.construct c.id args

/-- The object whose field is accessed. -/
def fieldOwner (m : Member) : Option Value → Except Fault Nat
  | none | some .null =>
    .error
      (.raise .invalidOperation ("field \x60" ++ m.name ++ "\x60 accessed on a null reference"))
  | some (.object _ addr) => .ok addr
  | some v => .error (.typeMismatch "object" v.sortName)

/-- A field that was never written reads as its zero. -/
def readMember (m : Member) (target : Option Value) : Store → Routine :=
  match m.body with
  | .field => match fieldOwner m target with
    | .ok addr => fun s => .pure ((s.field? addr m.name).getD (.zero m.ty)) s
    | .error f => .ofFault f
  | .static slot => fun s => .pure ((s.static? slot).getD (.zero m.ty)) s
  | .property => h.get m.id target

def writeMember (m : Member) (target : Option Value) (v : Value) : Store → Routine :=
  match m.body with
  | .field => match fieldOwner m target with
    | .ok addr => fun s => .pure .void (s.setField addr m.name v)
    | .error f => .ofFault f
  | .static slot => fun s => .pure .void (s.setStatic slot v)
  | .property =>
    if m.canWrite then h.set m.id target v
    else .throw .invalidOperation ("property \x60" ++ m.name ++ "\x60 has no setter")

def readItem (i : Indexer) (target : Value) (args : List Value) : Store → Routine :=
  h.getItem i.id target args

def writeItem (i : Indexer) (target : Value) (args : List Value) (v : Value) : Store → Routine :=
  if i.canWrite then h.setItem i.id target args v
  else .throw .invalidOperation ("indexer \x60" ++ i.name ++ "\x60 has no setter")

end Host

end ExprTree
