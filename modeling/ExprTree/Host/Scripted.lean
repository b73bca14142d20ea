import ExprTree.Host

/-! A host whose handles follow scripts and write a line for every use. -/
namespace ExprTree

/-- What a scripted method, constructor or delegate does with its arguments. -/
inductive Script where
  | constant (v : Value)
  | argument (i : Nat)
  | receiver
  | throw (c : ClassType) (message : String)
  | fatal (message : String)
  /-- Invokes a delegate, with the receiver before the arguments if there is one. -/
  | delegate (f : Value)

/-- A property over a static cell, or over a field of its object named after it. -/
structure ScriptedProperty where
  name : String
  ty : Ty
  cell : Option Nat

/-- An indexer over the items of an array or a list, or over the fields of an object. -/
structure ScriptedIndexer where
  name : String
  item : Ty

/-- What is known of each handle, by its id; methods and constructors come with their names. -/
structure Scripts where
  methods : List (Nat × String × Script) := []
  constructors : List (Nat × String × Script) := []
  properties : List (Nat × ScriptedProperty) := []
  indexers : List (Nat × ScriptedIndexer) := []
  delegates : List (Nat × Script) := []

private def argsText (s : Store) (args : List Value) : String :=
  String.intercalate ", " (args.map (·.text s))

/-- Finishes with a value, a new exception or a fatal error. -/
def Routine.ofExcept (r : Except Fault (Value × Store)) (s : Store) : Routine :=
  match r with
  | .ok (v, s) => .pure v s
  | .error (.fatal e) => .fail (.fatal e) s
  | .error (.raise c m) => .throw c m s
  | .error .endless => .pure .void s

/-- What is missing has the value void. -/
def Script.run (script : Script) (receiver : Option Value) (args : List Value)
    (s : Store) : Routine :=
  match script with
  | .constant v => .pure v s
  | .argument i => .pure (args[i]?.getD .void) s
  | .receiver => .pure (receiver.getD .void) s
  | .throw c m => .throw c m s
  | .fatal m => .fail (.fatal (.typeMismatch "host" m)) s
  | .delegate f => .invoke f (receiver.toList ++ args) s .finish

namespace ScriptedProperty

private def field (p : ScriptedProperty) : String := "_" ++ p.name

/-- The object that has the field. -/
private def owner : Option Value → Except Fault Nat
  | some (.object _ addr) => .ok addr
  | some v => .error (.typeMismatch "object" v.sortName)
  | none => .error (.typeMismatch "object" "nothing")

private def read (p : ScriptedProperty) (target : Option Value) (s : Store) :
    Except Fault (Value × Store) :=
  match p.cell with
  | some slot => .ok ((s.static? slot).getD (.zero p.ty), s)
  | none => do return ((s.field? (← owner target) p.field).getD (.zero p.ty), s)

private def write (p : ScriptedProperty) (target : Option Value) (v : Value) (s : Store) :
    Except Fault (Value × Store) :=
  match p.cell with
  | some slot => .ok (.void, s.setStatic slot v)
  | none => do return (.void, s.setField (← owner target) p.field v)

def get (p : ScriptedProperty) (target : Option Value) (s : Store) : Routine :=
  let s := s.write ("get " ++ p.name)
  .ofExcept (p.read target s) s

def set (p : ScriptedProperty) (target : Option Value) (v : Value) (s : Store) : Routine :=
  let s := s.write ("set " ++ p.name ++ " = " ++ v.text s)
  .ofExcept (p.write target v s) s

end ScriptedProperty

namespace ScriptedIndexer

/-- The position in range that the first argument names. -/
private def position (args : List Value) (length : Nat) : Except Fault Nat :=
  match args with
  | .int .i32 w :: _ =>
    if 0 ≤ w.toInt ∧ w.toInt < length then .ok w.toInt.toNat
    else .error (.indexOutOfRange w.toInt length)
  | v :: _ => .error (.typeMismatch "i32 index" v.sortName)
  | [] => .error (.typeMismatch "i32 index" "nothing")

private def read (x : ScriptedIndexer) (target : Value) (args : List Value) (s : Store) :
    Except Fault (Value × Store) :=
  match target with
  | .array _ addr => item (s.arrayItems addr)
  | .list _ addr => item (s.listItems addr)
  | .object _ addr => .ok ((s.field? addr (argsText s args)).getD (.zero x.item), s)
  | v => .error (.typeMismatch "indexable" v.sortName)
where
  item (items : Array Value) := do
    return ((items[← position args items.size]?).getD (.zero x.item), s)

private def write (target : Value) (args : List Value) (v : Value) (s : Store) :
    Except Fault (Value × Store) :=
  match target with
  | .array _ addr => do
    return (.void, s.setArrayItem addr (← position args (s.arrayItems addr).size) v)
  | .list _ addr => do
    return (.void, s.setListItem addr (← position args (s.listItems addr).size) v)
  | .object _ addr => .ok (.void, s.setField addr (argsText s args) v)
  | v => .error (.typeMismatch "indexable" v.sortName)

def get (x : ScriptedIndexer) (target : Value) (args : List Value) (s : Store) : Routine :=
  let s := s.write ("get " ++ x.name ++ "[" ++ argsText s args ++ "]")
  .ofExcept (x.read target args s) s

def set (x : ScriptedIndexer) (target : Value) (args : List Value) (v : Value)
    (s : Store) : Routine :=
  let s := s.write ("set " ++ x.name ++ "[" ++ argsText s args ++ "] = " ++ v.text s)
  .ofExcept (write target args v s) s

end ScriptedIndexer

namespace Scripts

/-- A handle without a script does nothing. -/
private def follow {α : Type} (table : List (Nat × α)) (id : Nat) (run : α → Store → Routine)
    (s : Store) : Routine :=
  match table.lookup id with
  | some a => run a s
  | none => .pure .void s

/-- The host of the scripts. A use is logged before it has any effect. -/
def host (t : Scripts) : Host where
  method id receiver args := follow t.methods id fun (name, script) s =>
    let target := (receiver.map fun v => v.text s ++ ".").getD ""
    script.run receiver args (s.write (target ++ name ++ "(" ++ argsText s args ++ ")"))
  construct id args := follow t.constructors id fun (name, script) s =>
    script.run none args (s.write ("new " ++ name ++ "(" ++ argsText s args ++ ")"))
  get id target := follow t.properties id (·.get target)
  set id target v := follow t.properties id (·.set target v)
  getItem id target args := follow t.indexers id (·.get target args)
  setItem id target args v := follow t.indexers id (·.set target args v)
  delegate id args := follow t.delegates id fun script s =>
    script.run none args (s.write ("hostfn(" ++ argsText s args ++ ")"))

end Scripts

end ExprTree
