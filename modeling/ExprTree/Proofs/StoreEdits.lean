import ExprTree.Store
import Mathlib.Logic.Relation

/-! The store changes by its operations only, one at a time, which neither move what is there nor
take it away. -/
namespace ExprTree.Store

/-- One operation. -/
inductive Edit : Store → Store → Prop where
  | newArray (s : Store) (elem : Ty) (items : Array Value) : Edit s (s.newArray elem items).2
  | newList (s : Store) (elem : Ty) (items : Array Value) : Edit s (s.newList elem items).2
  | newObject (s : Store) (c : ClassType) (fs : Fields) : Edit s (s.newObject c fs).2
  | newDelegate (s : Store) (sig : Signature) (body : DelegateBody) :
    Edit s (s.newDelegate sig body).2
  | newStatic (s : Store) (v : Value) : Edit s (s.newStatic v).2
  | setArrayItem (s : Store) (addr i : Nat) (v : Value) : Edit s (s.setArrayItem addr i v)
  | setListItem (s : Store) (addr i : Nat) (v : Value) : Edit s (s.setListItem addr i v)
  | pushListItem (s : Store) (addr : Nat) (v : Value) : Edit s (s.pushListItem addr v)
  | setField (s : Store) (addr : Nat) (name : String) (v : Value) : Edit s (s.setField addr name v)
  | setStatic (s : Store) (slot : Nat) (v : Value) : Edit s (s.setStatic slot v)
  | write (s : Store) (line : String) : Edit s (s.write line)

/-- Any number of them. -/
def Edited : Store → Store → Prop := Relation.ReflTransGen Edit

variable {s t u : Store}

theorem Edited.refl (s : Store) : s.Edited s := Relation.ReflTransGen.refl

theorem Edited.trans (h : s.Edited t) (h' : t.Edited u) : s.Edited u :=
  Relation.ReflTransGen.trans h h'

theorem Edit.edited (h : s.Edit t) : s.Edited t := Relation.ReflTransGen.single h

end ExprTree.Store
