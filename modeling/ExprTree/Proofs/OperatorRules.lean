import ExprTree.Proofs.Factories
import ExprTree.Proofs.IntegerArithmetic
import ExprTree.Proofs.TypedOperators

/-! Whether an operator that a factory accepts has a rule for its operands. The factory looks at
each operand by itself, the rule at both together, so that operands of two types may each be
accepted and have no rule between them. -/
namespace ExprTree

section

variable {α β : Type} {Q : α → Prop} {r : Except Fault α}

/-- A value with the property or an exception: nothing fatal, and no text without end. -/
def Responds (Q : α → Prop) : Except Fault α → Prop
  | .ok a => Q a
  | .error (.raise ..) => True
  | .error _ => False

theorem Responds.bind {R : β → Prop} {f : α → Except Fault β} (h : Responds Q r)
    (hf : ∀ a, Q a → Responds R (f a)) : Responds R (r >>= f) := by
  rcases r with e | a
  · cases e <;> exact h
  · exact hf a h

theorem Responds.map {R : β → Prop} {f : α → β} (h : Responds Q r) (hf : ∀ a, Q a → R (f a)) :
    Responds R (r.map f) := by
  rcases r with e | a
  · cases e <;> exact h
  · exact hf a h

theorem responds_orOverflow {o : Option α} {operation : String} :
    Responds (fun _ => True) (orOverflow o operation) := by
  cases o <;> trivial

end

/-! ### Conversions -/

theorem Wide.integral_responds {w : Wide} {checked : Bool} {operation : String} :
    Responds (fun _ => True) (w.integral checked operation) := by
  cases w with
  | float x =>
    rw [integral]
    split <;> trivial
  | _ => trivial

theorem Wide.toWord_responds {w : Wide} {k : IntKind} {checked : Bool} :
    Responds (fun _ => True) (w.toWord k checked) := by
  refine integral_responds.bind ?_
  rintro ⟨n, must⟩ -
  dsimp only
  split
  · split <;> trivial
  · trivial

/-- A number converts to a number of the kind, or there is an exception. -/
theorem Wide.toNumber_responds {w : Wide} {kind : NumKind} {checked : Bool} :
    Responds (·.runtimeType = kind.ty) (w.toNumber kind checked) := by
  cases kind with
  | int k => exact toWord_responds.map fun _ _ => rfl
  | decimal =>
    rw [toNumber]
    split
    · rfl
    · trivial
  | _ => rfl

namespace Value

variable {a b v : Value} {k l : NumKind}

theorem ty_numKind (h : v.numKind? = some k) : v.runtimeType = k.ty := by
  cases v <;> cases h <;> rfl

theorem of?_number (h : v.numKind? = some k) : ∃ w, Wide.of? v = some w := by
  cases v <;> cases h <;> exact ⟨_, rfl⟩

theorem coerce_responds (h : v.numKind? = some l) :
    Responds (·.runtimeType = k.ty) (v.coerce k) := by
  obtain ⟨w, hw⟩ := of?_number h
  rw [coerce, h]
  dsimp only
  split
  · rename_i hk
    exact hk ▸ ty_numKind h
  · rw [hw]
    exact Wide.toNumber_responds

theorem coerce_other (h : v.numKind? = none) : v.coerce k = .ok v := by
  rw [coerce, h]

end Value

/-! ### Rules for two operands of one type -/

namespace Build

/-- The operand types other than `object` that a factory accepts for an operator. -/
def accepted : BinaryOp → Ty → Bool
  | .arith op, t => arithOperand op t
  | .compare _, t => orderOperand t
  | _, _ => false

end Build

theorem ordered_responds {c : Comparison} {o : Ordering} {operands : String} :
    Responds (fun _ => True) (ordered (.binary (.compare c)) o operands) := trivial

theorem Word.arith_responds {k : IntKind} {op : Arith} {a b : Word k} :
    Responds (fun _ => True) (a.arith op b) := by
  cases op with
  | addChecked | subtractChecked | multiplyChecked => exact responds_orOverflow
  | divide | modulo =>
    rw [Word.arith]
    split
    · trivial
    · exact responds_orOverflow
  | power =>
    rw [Word.arith]
    split <;> trivial
  | _ => trivial

theorem floatOrdered_responds {c : Comparison} {less equal greater : Bool} {kind : String} :
    Responds (fun _ => True) (floatOrdered (.binary (.compare c)) less equal greater kind) := by
  unfold floatOrdered
  split
  · exact ordered_responds
  split
  · exact ordered_responds
  split
  · exact ordered_responds
  · trivial

section

variable {op : Arith}

theorem float32_responds {a b : Float32} (h : Build.arithOperand op .float32) :
    Responds (fun _ => True) (float32Binary (.binary (.arith op)) a b) := by
  cases op <;> trivial

theorem float64_responds {a b : Float} (h : Build.arithOperand op .float64) :
    Responds (fun _ => True) (float64Binary (.binary (.arith op)) a b) := by
  cases op <;> trivial

theorem decimal_responds {a b : Decimal} (h : Build.arithOperand op .decimal) (hp : op ≠ .power) :
    Responds (fun _ => True) (decimalBinary (.binary (.arith op)) a b) := by
  have hmap {o : Option Decimal} {operation : String} :
      Responds (fun _ => True) ((orOverflow o operation).map Value.decimal) :=
    responds_orOverflow.map fun _ _ => trivial
  have hdivision {o : Option Decimal} {operation : String} : Responds (fun _ => True)
      (if b.isZero then .error .divideByZero else (orOverflow o operation).map Value.decimal) := by
    split
    · trivial
    · exact hmap
  cases op with
  | add | addChecked | subtract | subtractChecked | multiply | multiplyChecked => exact hmap
  | divide | modulo => exact hdivision
  | power => exact absurd rfl hp
  | _ => cases h

theorem bool_responds {a b : Bool} (h : Build.arithOperand op .bool) :
    Responds (fun _ => True) (boolBinary (.binary (.arith op)) a b) := by
  cases op <;> trivial

end

/-- An operator has a rule for two operands of a type that the factory accepts for each. -/
theorem kindBinary_responds {op : BinaryOp} {a b : Value} (h : Build.accepted op a.runtimeType)
    (ht : b.runtimeType = a.runtimeType) (hp : ¬(op = .arith .power ∧ a.runtimeType = .decimal)) :
    Responds (fun _ => True) (kindBinary (.binary op) a b) := by
  cases a with
  | int k v =>
    obtain ⟨w, rfl⟩ := Value.fits_int (Value.fits_of_runtimeType ht)
    have hk : kindBinary (.binary op) (.int k v) (.int k w) = wordBinary (.binary op) v w :=
      dif_pos rfl
    rw [hk]
    cases op with
    | arith op => exact Word.arith_responds.map fun _ _ => trivial
    | compare c => trivial
    | _ => cases h
  | float32 x =>
    cases b <;> cases ht
    cases op with
    | arith op => exact float32_responds h
    | compare c => exact floatOrdered_responds
    | _ => cases h
  | float64 x =>
    cases b <;> cases ht
    cases op with
    | arith op => exact float64_responds h
    | compare c => exact floatOrdered_responds
    | _ => cases h
  | decimal x =>
    cases b <;> cases ht
    cases op with
    | arith op => exact decimal_responds h fun hop => hp ⟨congrArg _ hop, rfl⟩
    | compare c => trivial
    | _ => cases h
  | bool x =>
    cases b <;> cases ht
    cases op with
    | arith op => exact bool_responds h
    | _ => cases h
  | char x | str x =>
    cases b <;> cases ht
    cases op with
    | arith op => cases op <;> cases h
    | compare c => trivial
    | _ => cases h
  | _ =>
    cases op with
    | arith op => cases op <;> cases h
    | _ => cases h

/-! ### Rules for any two operands -/

namespace BinaryOp

/-- Whether the operator is applied to the values of both operands: it is neither short-circuit nor
coalescing, nor an array index, nor an assignment. -/
def isStrict : BinaryOp → Bool
  | .arith _ | .compare _ => true
  | _ => false

/-- Whether there is a rule between operands of two types. Equality takes all values, and so does a
plus with a text; numbers go together, as the right one is converted; all else must be of one
type. -/
def hasRule (op : BinaryOp) (l r : Ty) : Bool :=
  op == .compare .equal || op == .compare .notEqual ||
    (op == .arith .add && (l == .str || r == .str)) ||
    (l.isNumeric && r.isNumeric) || l == r

end BinaryOp

section

variable {op : BinaryOp} {a b : Value} {s : Store}

theorem isNumeric_runtimeType {v : Value} : v.runtimeType.isNumeric = v.numKind?.isSome := by
  cases v <;> rfl

theorem coerced_number (ha : Build.accepted op a.runtimeType) (hb : b.runtimeType.isNumeric)
    (hn : a.runtimeType.isNumeric) (hp : ¬(op = .arith .power ∧ a.runtimeType = .decimal)) :
    Responds (fun _ => True) (NodeKind.applyBinary.coerced (.binary op) a b) := by
  rw [isNumeric_runtimeType, Option.isSome_iff_exists] at hn hb
  obtain ⟨k, hk⟩ := hn
  obtain ⟨l, hl⟩ := hb
  rw [NodeKind.applyBinary.coerced, hk]
  refine (Value.coerce_responds hl).bind fun c hc => ?_
  exact kindBinary_responds ha (hc.trans (Value.ty_numKind hk).symm) hp

theorem kindBinary_mixed (h : a.runtimeType ≠ b.runtimeType) :
    kindBinary (.binary op) a b =
      .error (.unsupported (.binary op) (a.sortName ++ " and " ++ b.sortName)) := by
  unfold kindBinary
  split
  · rename_i k v l w
    exact dif_neg fun hl => h (congrArg Ty.int hl.symm)
  all_goals first
    | rfl
    | exact absurd rfl h

/-- A value that is no number is not converted. -/
theorem coerced_mixed (hn : ¬(a.runtimeType.isNumeric ∧ b.runtimeType.isNumeric))
    (h : a.runtimeType ≠ b.runtimeType) :
    NodeKind.applyBinary.coerced (.binary op) a b =
      .error (.unsupported (.binary op) (a.sortName ++ " and " ++ b.sortName)) := by
  rw [isNumeric_runtimeType, isNumeric_runtimeType] at hn
  rw [NodeKind.applyBinary.coerced]
  cases ha : a.numKind? with
  | none => exact kindBinary_mixed h
  | some k =>
    have hb : b.numKind? = none := by simpa [ha] using hn
    rw [← kindBinary_mixed h]
    dsimp only
    rw [Value.coerce_other hb]
    rfl

/-- Operands that the factory accepts each go to the rule for their kinds, but for shifts. -/
theorem applyBinary_coerced (ha : Build.accepted op a.runtimeType)
    (hb : Build.accepted op b.runtimeType) (hl : op ≠ .arith .shiftLeft)
    (hr : op ≠ .arith .shiftRight) (he : op ≠ .compare .equal) (hn : op ≠ .compare .notEqual) :
    NodeKind.applyBinary (.binary op) s a b = NodeKind.applyBinary.coerced (.binary op) a b := by
  have hstr {v : Value} (hv : Build.accepted (.arith .add) v.runtimeType) : v.str? = none := by
    cases v <;> first | rfl | cases hv
  cases op with
  | arith op =>
    cases op with
    | add =>
      rw [NodeKind.applyBinary, hstr ha, hstr hb]
      rfl
    | shiftLeft => exact absurd rfl hl
    | shiftRight => exact absurd rfl hr
    | _ => rfl
  | compare c =>
    cases c with
    | equal => exact absurd rfl he
    | notEqual => exact absurd rfl hn
    | _ => rfl
  | _ => cases ha

theorem shift_responds {op : Arith} (ha : a.runtimeType.isInteger) (hb : b.runtimeType.isInteger) :
    Responds (fun _ => True) (shift op a b) := by
  cases a <;> cases ha
  cases b <;> cases hb
  rw [shift_word]
  trivial

end

/-! ### Operators that a factory accepts -/

namespace Build

variable {id : Nat} {l r n x : Node} {f : Option Lambda} {target : Option Ty}

/-- A strict operator without a method is accepted for all operands, for a text, or for each operand
by itself. -/
theorem binary_accepted {op : BinaryOp} (hs : op.isStrict)
    (h : binary id (.binary op) l r none f = .ok n) (hl : l.ty ≠ .object) (hr : r.ty ≠ .object) :
    (op = .compare .equal ∨ op = .compare .notEqual) ∨
      (op = .arith .add ∧ (l.ty = .str ∨ r.ty = .str)) ∨
      (accepted op l.ty ∧ accepted op r.ty) := by
  obtain ⟨t, -, ht⟩ := binary_shape h
  cases op with
  | arith op =>
    simp only [binaryType, methodOr_none, arithType] at ht
    split at ht
    · rename_i hstr
      exact Or.inr (Or.inl ⟨congrArg _ hstr.1, hstr.2⟩)
    · simp only [bind_ok, checkOperand_ok, hl, hr, false_or, exists_const] at ht
      exact Or.inr (Or.inr ⟨ht.1, ht.2.1⟩)
  | compare c =>
    cases c with
    | equal => exact Or.inl (Or.inl rfl)
    | notEqual => exact Or.inl (Or.inr rfl)
    | _ =>
      simp only [binaryType, methodOr_none, comparisonType, bind_ok, checkOperand_ok, hl, hr,
        false_or, exists_const] at ht
      exact Or.inr (Or.inr ⟨ht.1, ht.2.1⟩)
  | _ => cases hs

/-- A unary operator without a method is accepted for an operand of a type that it is defined for, a
length for an array. -/
theorem unary_accepted {op : UnaryArith}
    (h : unary id (.unary (.arith op)) (some x) target none = .ok n) (hx : x.ty ≠ .object) :
    (op = .arrayLength ∧ ∃ e, x.ty = .array e) ∨ (op ≠ .arrayLength ∧ unaryOperand op x.ty) := by
  obtain ⟨t, -, ht⟩ := unary_shape (by nofun) h
  cases op with
  | arrayLength =>
    cases hty : x.ty with
    | array e => exact Or.inl ⟨rfl, e, rfl⟩
    | _ => simp [unaryType, hty] at ht
  | _ =>
    simp only [unaryType, unaryMethodOr, methodOr_none, bind_ok, checkOperand_ok, hx, false_or,
      exists_const] at ht
    grind [unaryOperand]

end Build

section

variable {op : BinaryOp} {a b v : Value} {s : Store}

/-- A concatenation fails only of a text without end. -/
theorem concat_responds : Responds (fun _ => True) (concat s a b) ∨
    (concat s a b = .error .endless ∧ (a.concatText? s = none ∨ b.concatText? s = none)) := by
  unfold concat
  cases ha : a.concatText? s with
  | none => exact Or.inr ⟨rfl, Or.inl rfl⟩
  | some x =>
    cases hb : b.concatText? s with
    | none => exact Or.inr ⟨rfl, Or.inr rfl⟩
    | some y => exact Or.inl trivial

theorem str?_of_type (h : v.runtimeType = .str) : v.str?.isSome := by
  cases v <;> first | rfl | cases h

theorem applyBinary_concat (h : a.str?.isSome || b.str?.isSome) :
    NodeKind.applyBinary (.binary (.arith .add)) s a b = concat s a b := if_pos h

/-- Operands of one type and numbers have a rule, and others have none. -/
theorem operands_ruled (ha : Build.accepted op a.runtimeType) (hb : Build.accepted op b.runtimeType)
    (he : op ≠ .compare .equal) (hn : op ≠ .compare .notEqual)
    (hp : ¬(op = .arith .power ∧ a.runtimeType = .decimal)) :
    ((a.runtimeType.isNumeric ∧ b.runtimeType.isNumeric) ∨ a.runtimeType = b.runtimeType →
      Responds (fun _ => True) (NodeKind.applyBinary (.binary op) s a b)) ∧
    (¬((a.runtimeType.isNumeric ∧ b.runtimeType.isNumeric) ∨ a.runtimeType = b.runtimeType) →
      NodeKind.applyBinary (.binary op) s a b =
        .error (.unsupported (.binary op) (a.sortName ++ " and " ++ b.sortName))) := by
  by_cases hshift : op = .arith .shiftLeft ∨ op = .arith .shiftRight
  · have hrule : Responds (fun _ => True) (NodeKind.applyBinary (.binary op) s a b) := by
      rcases hshift with rfl | rfl <;> exact shift_responds ha hb
    have hnumeric {t : Ty} (ht : Build.accepted op t) : t.isNumeric := by
      rcases hshift with rfl | rfl <;> cases t <;> first | rfl | cases ht
    exact ⟨fun _ => hrule, fun h => absurd (Or.inl ⟨hnumeric ha, hnumeric hb⟩) h⟩
  · -- But for shifts, an operator goes by the kinds of both operands, once a number on the right
    -- has the left kind.
    obtain ⟨hl, hr⟩ := not_or.mp hshift
    rw [applyBinary_coerced ha hb hl hr he hn]
    refine ⟨fun h => ?_, fun h => coerced_mixed (fun hn => h (Or.inl hn)) fun ht => h (Or.inr ht)⟩
    by_cases hnum : a.runtimeType.isNumeric ∧ b.runtimeType.isNumeric
    · exact coerced_number ha hnum.2 hnum.1 hp
    · -- Values of one type that are no numbers stay as they are.
      have ht := h.resolve_left hnum
      have hnone : a.numKind? = none := by
        rw [← ht, and_self, isNumeric_runtimeType] at hnum
        simpa using hnum
      rw [NodeKind.applyBinary.coerced, hnone]
      exact kindBinary_responds ha ht.symm hp

/-- An operator has a rule for an operand of a type that the factory accepts. -/
theorem applyUnary_responds {op : UnaryArith} (hl : op ≠ .arrayLength)
    (h : Build.unaryOperand op v.runtimeType) :
    Responds (fun _ => True) (NodeKind.applyUnary (.unary (.arith op)) s v) := by
  cases v with
  | int k w =>
    cases op with
    | negateChecked =>
      simp only [NodeKind.applyUnary, wordUnary]
      split <;> trivial
    | arrayLength => exact absurd rfl hl
    | isTrue | isFalse => cases h
    | _ => trivial
  | decimal d =>
    cases op with
    | increment | decrement =>
      simp only [NodeKind.applyUnary, decimalUnary]
      split <;> trivial
    | arrayLength => exact absurd rfl hl
    | isTrue | isFalse | not | complement => cases h
    | _ => trivial
  | float32 | float64 | bool => cases op <;> trivial
  | _ => cases op <;> contradiction

theorem length_responds {e : Ty} (h : v.runtimeType = .array e) :
    Responds (fun _ => True) (NodeKind.applyUnary (.unary (.arith .arrayLength)) s v) := by
  cases v <;> cases h
  simp only [NodeKind.applyUnary, arrayUnary]
  split <;> trivial

end

/-- An operator that a factory accepts for two operands of types other than `object` gives a value
or raises an exception if it has a rule for both types together, but for a concatenation of a text
without end. For operands that are accepted each by itself and have no rule together there is none
to be found at run time either. Of unary operators all that are accepted have a rule. -/
theorem accepted_operators_ruled (s : Store) :
    (∀ (id : Nat) (op : BinaryOp) (l r n : Node) (f : Option Lambda) (a b : Value), op.isStrict →
      Build.binary id (.binary op) l r none f = .ok n → l.ty ≠ .object → r.ty ≠ .object →
      ¬(op = .arith .power ∧ l.ty = .decimal) → a.runtimeType = l.ty → b.runtimeType = r.ty →
      let result := NodeKind.applyBinary (.binary op) s a b
      if op.hasRule l.ty r.ty then
        Responds (fun _ => True) result ∨
          (op = .arith .add ∧ result = .error .endless ∧
            (a.concatText? s = none ∨ b.concatText? s = none))
      else result = .error (.unsupported (.binary op) (a.sortName ++ " and " ++ b.sortName))) ∧
    ∀ (id : Nat) (op : UnaryArith) (x n : Node) (target : Option Ty) (v : Value),
      Build.unary id (.unary (.arith op)) (some x) target none = .ok n → x.ty ≠ .object →
      v.runtimeType = x.ty →
      Responds (fun _ => True) (NodeKind.applyUnary (.unary (.arith op)) s v) := by
  constructor
  · intro id op l r n f a b hs h hl hr hp ha hb result
    rw [← ha] at hp
    rcases Build.binary_accepted hs h hl hr with he | ⟨rfl, hstr⟩ | hboth
    · rcases he with rfl | rfl <;> exact Or.inl trivial
    · have hrule : BinaryOp.hasRule (.arith .add) l.ty r.ty := by
        rcases hstr with h | h <;> simp [BinaryOp.hasRule, h]
      have htext : a.str?.isSome || b.str?.isSome := by
        rw [← ha, ← hb] at hstr
        exact Bool.or_eq_true_iff.mpr (hstr.imp str?_of_type str?_of_type)
      rw [if_pos hrule]
      change Responds _ (NodeKind.applyBinary _ _ _ _) ∨ (_ ∧ NodeKind.applyBinary _ _ _ _ = _ ∧ _)
      rw [applyBinary_concat htext]
      exact concat_responds.imp_right fun h => ⟨rfl, h⟩
    · rw [← ha, ← hb] at hboth ⊢
      by_cases he : op = .compare .equal ∨ op = .compare .notEqual
      · rcases he with rfl | rfl <;> exact Or.inl trivial
      obtain ⟨hequal, hunequal⟩ := not_or.mp he
      -- No text is a number, so what is accepted operand by operand is no concatenation.
      have hplus : ¬(op = .arith .add ∧ (a.runtimeType = .str ∨ b.runtimeType = .str)) := by
        rintro ⟨rfl, h | h⟩
        · exact absurd (h ▸ hboth.1) nofun
        · exact absurd (h ▸ hboth.2) nofun
      have hrule : op.hasRule a.runtimeType b.runtimeType ↔
          (a.runtimeType.isNumeric ∧ b.runtimeType.isNumeric) ∨ a.runtimeType = b.runtimeType := by
        simp [BinaryOp.hasRule, hequal, hunequal, hplus]
      obtain ⟨hruled, hmixed⟩ := operands_ruled (s := s) hboth.1 hboth.2 hequal hunequal hp
      split
      · rename_i h
        exact Or.inl (hruled (hrule.mp h))
      · rename_i h
        exact hmixed fun h' => h (hrule.mpr h')
  · intro id op x n target v h hx hv
    rcases Build.unary_accepted h hx with ⟨rfl, e, he⟩ | ⟨hop, hu⟩
    · exact length_responds (hv.trans he)
    · exact applyUnary_responds hop (hv ▸ hu)

/-- A quotient of two kinds of integers has a rule, a truth value a complement, and a text no order
to a character. -/
theorem mixed_operands_ruled :
    let six : Value := .int .i8 (.wrap .i8 6)
    let ten : Value := .int .u64 (.wrap .u64 10)
    let text : Value := .str "a"
    let letter : Value := .char 'a'
    let const (v : Value) : Node := Build.constant 0 v
    (Build.binary 0 (.binary (.arith .divide)) (const six) (const ten) none none).isOk ∧
      Responds (fun _ => True) (NodeKind.applyBinary (.binary (.arith .divide)) {} six ten) ∧
    (Build.binary 0 (.binary (.compare .less)) (const text) (const letter) none none).isOk ∧
      NodeKind.applyBinary (.binary (.compare .less)) {} text letter =
        .error (.unsupported (.binary (.compare .less)) "str and char") ∧
    (Build.unary 0 (.unary (.arith .not)) (some (const (.bool true))) none none).isOk ∧
      Responds (fun _ => True) (NodeKind.applyUnary (.unary (.arith .not)) {} (.bool true)) := by
  intro six ten text letter const
  obtain ⟨hbinary, hunary⟩ := accepted_operators_ruled {}
  have hdivide :=
    hbinary 0 (.arith .divide) (const six)
      (const ten) _ none six ten rfl rfl nofun nofun nofun rfl rfl
  have hless :=
    hbinary 0 (.compare .less) (const text)
      (const letter) _ none text letter rfl rfl nofun nofun nofun rfl rfl
  have hnot := hunary 0 .not (const (.bool true)) _ none (.bool true) rfl nofun rfl
  exact ⟨rfl, hdivide.resolve_right nofun, rfl, hless, rfl, hnot⟩

/-- The conjunction of an integer and a truth value is accepted for its operands and has no rule. -/
theorem integer_and_bool_unruled :
    let one : Value := .int .i32 (.wrap .i32 1)
    let yes : Value := .bool true
    let l : Node := Build.constant 0 one
    let r : Node := Build.constant 1 yes
    (∃ n, Build.binary 2 (.binary (.arith .and)) l r none none = .ok n) ∧ one.runtimeType = l.ty ∧
    yes.runtimeType = r.ty ∧
      ∀ s : Store, NodeKind.applyBinary (.binary (.arith .and)) s one yes =
        .error (.unsupported (.binary (.arith .and)) "i32 and bool") :=
  ⟨⟨_, rfl⟩, rfl, rfl, fun _ => rfl⟩

end ExprTree
