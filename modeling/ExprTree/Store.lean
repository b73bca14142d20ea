import ExprTree.Value

/-! The store: arrays, lists, objects, delegates and static slots by address, and the lines that the
host has written. -/
namespace ExprTree

/-- The items of an array or a list and the type they were declared with. -/
structure Items where
  elem : Ty
  items : Array Value

/-- Values by name, in order of the names. -/
abbrev Fields := List (String × Value)

namespace Fields

def get? (fs : Fields) (name : String) : Option Value :=
  match fs with
  | [] => none
  | (n, v) :: rest => if n = name then some v else get? rest name

def set (fs : Fields) (name : String) (v : Value) : Fields :=
  match fs with
  | [] => [(name, v)]
  | (n, w) :: rest =>
    if n = name then (name, v) :: rest
    else if name < n then (name, v) :: (n, w) :: rest
    else (n, w) :: set rest name v

def ofList (fs : List (String × Value)) : Fields :=
  fs.foldl (fun acc (n, v) => set acc n v) []

end Fields

/-- Values by parameter id. -/
abbrev Slots := List (Nat × Value)

/-- A closure holds the values visible where it was made and the limit of its maker; any other
delegate runs the host's routine of its id. -/
inductive DelegateBody where
  | closure (lambda : Lambda) (captures : Slots) (limit : Option Nat)
  | host (id : Nat)

structure Store where
  arrays : Array Items := .empty
  lists : Array Items := .empty
  objects : Array Fields := .empty
  delegates : Array DelegateBody := .empty
  statics : Array Value := .empty
  log : Array String := .empty

namespace Store

def newArray (s : Store) (elem : Ty) (items : Array Value) : Value × Store :=
  (.array elem s.arrays.size, { s with arrays := s.arrays.push ⟨elem, items⟩ })

def newList (s : Store) (elem : Ty) (items : Array Value) : Value × Store :=
  (.list elem s.lists.size, { s with lists := s.lists.push ⟨elem, items⟩ })

def newObject (s : Store) (c : ClassType) (fs : Fields) : Value × Store :=
  (.object c s.objects.size, { s with objects := s.objects.push fs })

def newDelegate (s : Store) (sig : Signature) (body : DelegateBody) : Value × Store :=
  (.delegate sig s.delegates.size, { s with delegates := s.delegates.push body })

def newStatic (s : Store) (v : Value) : Nat × Store :=
  (s.statics.size, { s with statics := s.statics.push v })

/-- The field that carries the message of an exception. -/
def messageField : String := "Message"

def newException (s : Store) (c : ClassType) (message : String) : Value × Store :=
  s.newObject c [(messageField, .str message)]

def arrayItems (s : Store) (addr : Nat) : Array Value :=
  (s.arrays[addr]?.map Items.items).getD .empty
def listItems (s : Store) (addr : Nat) : Array Value := (s.lists[addr]?.map Items.items).getD .empty
def fields (s : Store) (addr : Nat) : Fields := s.objects[addr]?.getD []
def field? (s : Store) (addr : Nat) (name : String) : Option Value := (s.fields addr).get? name
def static? (s : Store) (slot : Nat) : Option Value := s.statics[slot]?

def setItem (cells : Array Items) (addr i : Nat) (v : Value) : Array Items :=
  cells.modify addr fun c => { c with items := c.items.setIfInBounds i v }

/-- Nothing is written out of range. -/
def setArrayItem (s : Store) (addr i : Nat) (v : Value) : Store :=
  { s with arrays := setItem s.arrays addr i v }

def setListItem (s : Store) (addr i : Nat) (v : Value) : Store :=
  { s with lists := setItem s.lists addr i v }

def pushListItem (s : Store) (addr : Nat) (v : Value) : Store :=
  { s with lists := s.lists.modify addr fun c => { c with items := c.items.push v } }

def setField (s : Store) (addr : Nat) (name : String) (v : Value) : Store :=
  { s with objects := s.objects.modify addr (·.set name v) }

def setStatic (s : Store) (slot : Nat) (v : Value) : Store :=
  { s with statics := s.statics.setIfInBounds slot v }

def write (s : Store) (line : String) : Store := { s with log := s.log.push line }

/-- The message of an exception object, if it is a text. -/
def message? (s : Store) : Value → Option String
  | .object _ addr => (s.field? addr messageField).bind Value.str?
  | _ => none

end Store

end ExprTree
