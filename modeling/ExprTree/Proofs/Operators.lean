import ExprTree.Operator.Element
import ExprTree.Operator.Unary
import ExprTree.Proofs.Subtyping

/-! What the native operators and conversions give: the type of a result, and which errors there are
instead of one. -/
namespace ExprTree

variable {α β : Type} {Q : α → Prop} {F : EvalError → Prop} {r : Except Fault α}

/-- A result satisfies `Q` and a fatal error `F`; an exception may be raised in any case. -/
def Lands (Q : α → Prop) (F : EvalError → Prop) : Except Fault α → Prop
  | .ok a => Q a
  | .error (.fatal e) => F e
  | .error _ => True

theorem Lands.mono {Q' : α → Prop} {F' : EvalError → Prop} (h : Lands Q F r)
    (hq : ∀ a, Q a → Q' a) (hf : ∀ e, F e → F' e) : Lands Q' F' r := by
  rcases r with f | a
  · cases f with
    | fatal e => exact hf e h
    | raise c m => trivial
    | endless => trivial
  · exact hq a h

theorem Lands.bind {R : β → Prop} {f : α → Except Fault β} (h : Lands Q F r)
    (hf : ∀ a, Q a → Lands R F (f a)) : Lands R F (r >>= f) := by
  rcases r with e | a
  · cases e <;> exact h
  · exact hf a h

theorem Lands.map {R : β → Prop} {f : α → β} (h : Lands Q F r) (hf : ∀ a, Q a → R (f a)) :
    Lands R F (r.map f) := by
  rcases r with e | a
  · cases e <;> exact h
  · exact hf a h

theorem lands_overflow {operation : String} : Lands Q F (.error (.overflow operation)) := trivial

theorem lands_divideByZero : Lands Q F (.error .divideByZero) := trivial

theorem lands_orOverflow {o : Option α} {operation : String} (h : ∀ a, o = some a → Q a) :
    Lands Q F (orOverflow o operation) := by
  cases o with
  | none => trivial
  | some a => exact h a rfl

/-- The error that an operator has no rule for an operand. -/
def EvalError.isOperand : EvalError → Bool
  | .unsupportedOperand .. => true
  | _ => false

/-- The result is of the type, and only a missing rule is an error. -/
abbrev Gives (t : Ty) : Except Fault Value → Prop := Lands (·.runtimeType = t) (·.isOperand)

theorem gives_unsupported {t : Ty} {op : NodeKind} {operand : String} :
    Gives t (.error (.unsupported op operand)) := rfl

/-! ### Binary operators -/

/-- The type of a result: a comparison gives a `bool`, any other operator what its operands are. -/
def NodeKind.resultTy (op : NodeKind) (operand : Ty) : Ty :=
  if op.isComparison then .bool else operand

variable {op : NodeKind} {t : Ty}

theorem ordered_gives {o : Ordering} {operands : String} :
    Gives (op.resultTy t) (ordered op o operands) := by
  unfold ordered
  split
  · rfl
  · exact gives_unsupported

theorem Word.arith_lands {k : IntKind} {op : Arith} {a b : Word k} :
    Lands (fun _ => True) (·.isOperand) (Word.arith op a b) := by
  cases op <;> simp only [Word.arith] <;> try split
  all_goals first
    | exact lands_orOverflow fun _ _ => trivial
    | trivial

theorem wordBinary_gives {k : IntKind} {a b : Word k} :
    Gives (op.resultTy (.int k)) (wordBinary op a b) := by
  unfold wordBinary
  split
  · exact Word.arith_lands.map fun _ _ => rfl
  · exact ordered_gives

theorem floatOrdered_gives {less equal greater : Bool} {kind : String} :
    Gives (op.resultTy t) (floatOrdered op less equal greater kind) := by
  unfold floatOrdered
  split
  · exact ordered_gives
  split
  · exact ordered_gives
  split
  · exact ordered_gives
  split
  · rename_i h
    simp [Gives, Lands, Value.runtimeType, NodeKind.resultTy, h]
  · exact gives_unsupported

theorem float64Binary_gives {a b : Float} :
    Gives (op.resultTy .float64) (float64Binary op a b) := by
  unfold float64Binary
  split <;> first | rfl | exact floatOrdered_gives

theorem float32Binary_gives {a b : Float32} :
    Gives (op.resultTy .float32) (float32Binary op a b) := by
  unfold float32Binary
  split <;> first | rfl | exact floatOrdered_gives

theorem Decimal.power_gives {b e : Decimal} : Gives .decimal (b.power e) := by
  unfold Decimal.power
  split
  · exact gives_unsupported
  · split
    · exact lands_overflow
    · refine Lands.bind (lands_orOverflow (Q := fun _ => True) fun _ _ => trivial) ?_
      intro p _
      split
      · rfl
      · split
        · exact lands_divideByZero
        · exact (lands_orOverflow (Q := fun _ => True) fun _ _ => trivial).map fun _ _ => rfl

theorem decimalBinary_gives {a b : Decimal} :
    Gives (op.resultTy .decimal) (decimalBinary op a b) := by
  have hmap (o : Option Decimal) (what : String) :
      Gives .decimal ((orOverflow o what).map .decimal) :=
    (lands_orOverflow (Q := fun _ => True) fun _ _ => trivial).map fun _ _ => rfl
  unfold decimalBinary
  split
  case h_9 => exact Decimal.power_gives
  case h_10 => exact ordered_gives
  all_goals try split
  all_goals first
    | exact lands_divideByZero
    | exact hmap _ _

theorem boolBinary_gives {a b : Bool} : Gives .bool (boolBinary op a b) := by
  unfold boolBinary
  split <;> rfl

theorem kindBinary_gives {a b : Value} : Gives (op.resultTy a.runtimeType) (kindBinary op a b) := by
  unfold kindBinary
  split
  · split
    · exact wordBinary_gives
    · exact gives_unsupported
  · exact float32Binary_gives
  · exact float64Binary_gives
  · exact decimalBinary_gives
  · refine boolBinary_gives.mono (fun v hv => hv.trans ?_) fun _ h => h
    simp [NodeKind.resultTy, Value.runtimeType]
  · exact ordered_gives
  · exact ordered_gives
  · exact gives_unsupported

/-! ### Conversions -/

/-- The result is of the type; an exception may be raised, but there is no other error. -/
abbrev Converts (t : Ty) : Except Fault Value → Prop := Lands (·.runtimeType = t) fun _ => False

theorem Wide.integral_lands {w : Wide} {checked : Bool} {operation : String} :
    Lands (fun _ => True) (fun _ => False) (w.integral checked operation) := by
  cases w with
  | float x =>
    simp only [integral]
    split <;> trivial
  | _ => trivial

theorem Wide.toNumber_converts {w : Wide} {kind : NumKind} {checked : Bool} :
    Converts kind.ty (w.toNumber kind checked) := by
  cases kind with
  | int k =>
    refine Lands.map (Q := fun _ => True) ?_ fun _ _ => rfl
    refine Lands.bind integral_lands ?_
    rintro ⟨n, c⟩ _
    simp only
    split
    · split <;> trivial
    · trivial
  | decimal =>
    simp only [toNumber]
    split
    · rfl
    · exact lands_overflow
  | _ => rfl

theorem Wide.toChar_converts {w : Wide} {checked : Bool} : Converts .char (w.toChar checked) := by
  refine Lands.bind integral_lands ?_
  rintro ⟨n, c⟩ _
  simp only
  split
  · exact lands_overflow
  · split
    · rfl
    · exact lands_overflow

theorem Value.coerce_lands {v : Value} {kind : NumKind} :
    Lands (fun _ => True) (fun _ => False) (v.coerce kind) := by
  unfold coerce
  split
  · trivial
  · split
    · trivial
    · split
      · exact Wide.toNumber_converts.mono (fun _ _ => trivial) fun _ h => h
      · trivial

theorem Value.convertReference_lands {v : Value} {t : Ty} :
    Lands (·.fits t) (fun _ => False) (v.convertReference t) := by
  unfold convertReference
  split
  · split
    · rename_i h
      exact null_fits h
    · trivial
  · split
    · rename_i h
      exact fits_of_isInstanceOf h
    · trivial

/-- What a conversion gives stands where its target is declared. -/
theorem Value.convert_lands {v : Value} {t : Ty} {checked : Bool} :
    Lands (·.fits t) (fun _ => False) (v.convert t checked) := by
  unfold convert
  split
  · rename_i h
    obtain rfl : t = .void := by cases t <;> simp_all [Ty.isVoid]
    exact fits_void
  · split
    · rename_i k _ h
      have hk := Ty.ty_of_numKind? h
      exact Wide.toNumber_converts.mono (fun u hu => fits_of_runtimeType (hu.trans hk)) fun _ h => h
    · exact Wide.toChar_converts.mono (fun u hu => fits_of_runtimeType hu) fun _ h => h
    · exact convertReference_lands

theorem Value.unbox_lands {v : Value} {t : Ty} :
    Lands (·.fits t) (fun _ => False) (v.unbox t) := by
  unfold unbox
  split
  · trivial
  · split
    · rename_i h
      exact fits_of_runtimeType h
    · trivial

theorem Value.typeAs_fits {v : Value} {t : Ty} (ht : t.isReference) : (v.typeAs t).fits t := by
  unfold typeAs
  split
  · rename_i h
    exact fits_of_isInstanceOf h
  · exact null_fits ht

/-! ### The native rules -/

theorem shift_gives {op : Arith} {a b : Value} : Gives a.runtimeType (shift op a b) := by
  refine Lands.bind (Value.coerce_lands.mono (fun _ h => h) fun _ h => h.elim) ?_
  intro c _
  split
  · split
    · rfl
    · exact gives_unsupported
  · exact gives_unsupported

theorem concat_gives {s : Store} {a b : Value} : Gives .str (concat s a b) := by
  unfold concat
  split
  · rfl
  · trivial

/-- A plus with a text is a text; every other operator gives what its left operand is. -/
def NodeKind.binaryTy (op : NodeKind) (a b : Value) : Ty :=
  if op = .binary (.arith .add) ∧ (a.str?.isSome || b.str?.isSome) then .str
  else op.resultTy a.runtimeType

theorem coerced_gives {a b : Value} :
    Gives (op.resultTy a.runtimeType) (NodeKind.applyBinary.coerced op a b) := by
  unfold NodeKind.applyBinary.coerced
  split
  · refine Lands.bind (Value.coerce_lands.mono (fun _ h => h) fun _ h => h.elim) ?_
    intro c _
    exact kindBinary_gives
  · exact kindBinary_gives

theorem applyBinary_gives {s : Store} {a b : Value} :
    Gives (op.binaryTy a b) (op.applyBinary s a b) := by
  by_cases h : op = .binary (.arith .add) ∧ (a.str?.isSome || b.str?.isSome)
  · rw [NodeKind.binaryTy, if_pos h]
    obtain ⟨rfl, hs⟩ := h
    simp only [NodeKind.applyBinary, hs, if_true]
    exact concat_gives
  · rw [NodeKind.binaryTy, if_neg h]
    unfold NodeKind.applyBinary
    split
    · rw [if_neg fun hs => h ⟨rfl, hs⟩]
      exact coerced_gives
    · exact shift_gives
    · exact shift_gives
    · rfl
    · rfl
    · exact coerced_gives

/-! ### Unary operators -/

theorem wordUnary_gives {k : IntKind} {a : Word k} : Gives (.int k) (wordUnary op a) := by
  unfold wordUnary
  split
  case h_2 => split <;> trivial
  all_goals rfl

theorem decimalUnary_gives {d : Decimal} : Gives .decimal (decimalUnary op d) := by
  unfold decimalUnary
  split
  case h_4 => split <;> trivial
  case h_5 => split <;> trivial
  all_goals rfl

theorem float64Unary_gives {x : Float} : Gives .float64 (float64Unary op x) := by
  unfold float64Unary
  split <;> rfl

theorem float32Unary_gives {x : Float32} : Gives .float32 (float32Unary op x) := by
  unfold float32Unary
  split <;> rfl

theorem boolUnary_gives {b : Bool} : Gives .bool (boolUnary op b) := by
  unfold boolUnary
  split <;> rfl

theorem arrayUnary_gives {n : Nat} : Gives (.int .i32) (arrayUnary op n) := by
  unfold arrayUnary
  split
  · split
    · rfl
    · exact lands_overflow
  · exact gives_unsupported

/-- The type of a unary result: the operand's own, and a length for an array. -/
def Value.unaryTy : Value → Ty
  | .array .. => .int .i32
  | v => v.runtimeType

theorem applyUnary_gives {s : Store} {v : Value} : Gives v.unaryTy (op.applyUnary s v) := by
  cases v with
  | int k w => exact wordUnary_gives
  | float32 x => exact float32Unary_gives
  | float64 x => exact float64Unary_gives
  | decimal d => exact decimalUnary_gives
  | bool b => exact boolUnary_gives
  | array e addr => exact arrayUnary_gives
  | _ => exact gives_unsupported

/-! ### Elements -/

/-- Whether the error is that a value is of another type than it must be. -/
def EvalError.isType : EvalError → Bool
  | .typeMismatch .. => true
  | _ => false

/-- A position found is one of the array's. -/
def Element (array : Value) (p : Nat × Nat) : Prop := ∃ e, array = .array e p.1

theorem Value.element_lands {s : Store} {array index : Value} :
    Lands (Element array) (·.isType) (array.element s index) := by
  unfold element
  split
  · split
    · rfl
    · simp only
      split
      · exact ⟨_, rfl⟩
      · trivial
  · trivial
  · rfl

/-- An integer finds its position in an array or raises an exception. -/
theorem Value.element_lands_of_fits {s : Store} {array index : Value} {e : Ty} {k : IntKind}
    (ha : array.fits (.array e)) (hi : index.fits (.int k)) :
    Lands (Element array) (fun _ => False) (array.element s index) := by
  obtain ⟨w, rfl⟩ := fits_int hi
  obtain rfl | ⟨addr, rfl⟩ := fits_array ha
  · trivial
  · simp only [element, index?, integer?, Option.map_some]
    split
    · exact ⟨e, rfl⟩
    · trivial

theorem Store.readElement_lands {s : Store} {addr position : Nat} :
    Lands (· ∈ s.arrayItems addr) (fun _ => False) (s.readElement addr position) := by
  unfold readElement
  split
  · rename_i h
    exact Array.mem_of_getElem? h
  · trivial

end ExprTree
