import ExprTree.Environment

/-! Scopes that share their parents: assigning through one child is seen through its siblings. -/
namespace ExprTree

structure Scope where
  slots : Slots
  parent : Option Nat

/-- Scopes by number; a parent is older than its children. -/
structure Scopes where
  scopes : Array Scope

namespace Scopes

/-- One scope without a parent. -/
def initial : Scopes := ⟨.singleton ⟨[], none⟩⟩

def add (s : Scopes) (parent : Option Nat) : Nat × Scopes :=
  (s.scopes.size, ⟨s.scopes.push ⟨[], parent⟩⟩)

/-- The scope and its ancestors, at most so many. -/
def ancestors (s : Scopes) : Nat → Nat → List Nat
  | 0, _ => []
  | n + 1, i => i :: match s.scopes[i]? with
    | some ⟨_, some p⟩ => s.ancestors n p
    | _ => []

/-- From a scope outward; an ancestor is older, so there are no more of them than scopes before. -/
def chain (s : Scopes) (i : Nat) : List Nat := s.ancestors (i + 1) i

/-- A scope that is not there has no slots. -/
def slotsOf (s : Scopes) (i : Nat) : Slots := (s.scopes[i]?.map Scope.slots).getD []

def define (s : Scopes) (i id : Nat) (v : Value) : Scopes :=
  ⟨s.scopes.modify i fun c => { c with slots := c.slots.set id v }⟩

def lookup (s : Scopes) (i id : Nat) : Option Value :=
  (s.chain i).findSome? fun j => (s.slotsOf j).get? id

/-- Overwrites the binding that `lookup` finds. -/
def assign? (s : Scopes) (i id : Nat) (v : Value) : Option Scopes :=
  ((s.chain i).find? fun j => ((s.slotsOf j).get? id).isSome).map fun j => s.define j id v

end Scopes

end ExprTree
