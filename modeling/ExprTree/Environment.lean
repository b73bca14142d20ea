import ExprTree.Store

/-! Environments: a stack of frames, each binding parameters to values. -/
namespace ExprTree

namespace Slots

def get? (id : Nat) : Slots → Option Value
  | [] => none
  | (i, v) :: rest => if i = id then some v else get? id rest

/-- Binds the parameter, over its old value if it has one. -/
def set (id : Nat) (v : Value) : Slots → Slots
  | [] => [(id, v)]
  | (i, w) :: rest => if i = id then (i, v) :: rest else (i, w) :: set id v rest

/-- The slots of both, the first ones hiding the others. -/
def overlay (inner outer : Slots) : Slots :=
  inner ++ outer.filter fun (i, _) => (inner.get? i).isNone

end Slots

/-- A non-empty stack of frames: `inner` holds those above the bottom one, innermost first. -/
structure Environment where
  inner : List Slots
  bottom : Slots

namespace Environment

def empty : Environment := ⟨[], []⟩

/-- The bottom frame holds captured values. -/
def ofCaptures (captures : Slots) : Environment :=
  ⟨[], captures.foldl (fun acc (i, v) => acc.set i v) []⟩

def depth (e : Environment) : Nat := e.inner.length + 1

def push (e : Environment) : Environment := { e with inner := [] :: e.inner }

/-- The bottom frame is never popped. -/
def pop (e : Environment) : Environment := { e with inner := e.inner.tail }

/-- Binds in the innermost frame. -/
def define (e : Environment) (id : Nat) (v : Value) : Environment :=
  match e.inner with
  | [] => { e with bottom := e.bottom.set id v }
  | f :: fs => { e with inner := f.set id v :: fs }

def defineAll (e : Environment) (bindings : Slots) : Environment :=
  bindings.foldl (fun e (i, v) => e.define i v) e

/-- The binding of the innermost frame that has one. -/
def lookup (e : Environment) (id : Nat) : Option Value :=
  (e.inner.findSome? (·.get? id)).or (e.bottom.get? id)

def assignIn (id : Nat) (v : Value) : List Slots → Option (List Slots)
  | [] => none
  | f :: fs =>
    if (f.get? id).isSome then some (f.set id v :: fs) else (assignIn id v fs).map (f :: ·)

/-- Overwrites the binding that `lookup` finds; `none` when there is none. -/
def assign? (e : Environment) (id : Nat) (v : Value) : Option Environment :=
  match assignIn id v e.inner with
  | some inner => some { e with inner }
  | none => if (e.bottom.get? id).isSome then some { e with bottom := e.bottom.set id v } else none

/-- All visible bindings; inner frames hide outer ones. -/
def capture (e : Environment) : Slots :=
  e.inner.foldr Slots.overlay e.bottom

end Environment

end ExprTree
