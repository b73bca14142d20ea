import ExprTree.Error

/-! Positions in arrays. -/
namespace ExprTree

/-- The integer that an index or a size holds, within 64 signed bits. -/
def Value.index? (v : Value) : Option Int :=
  v.integer?.map fun n => max IntKind.i64.min (min IntKind.i64.max n)

/-- The array's address and the position in range that an index names. -/
def Value.element (s : Store) (array index : Value) : Except Fault (Nat × Nat) :=
  match array with
  | .array _ addr => match index.index? with
    | none => .error (.typeMismatch "integer index" index.sortName)
    | some i =>
      let length := (s.arrayItems addr).size
      if 0 ≤ i ∧ i < length then .ok (addr, i.toNat) else .error (.indexOutOfRange i length)
  | .null => .error (.invalidOperation "cannot index a null array")
  | v => .error (.typeMismatch "array" v.sortName)

/-- The item at a position. -/
def Store.readElement (s : Store) (addr position : Nat) : Except Fault Value :=
  match (s.arrayItems addr)[position]? with
  | some v => .ok v
  | none => .error (.indexOutOfRange position (s.arrayItems addr).size)

end ExprTree
