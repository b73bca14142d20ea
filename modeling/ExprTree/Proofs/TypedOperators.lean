import ExprTree.Proofs.Factories
import ExprTree.Proofs.Operators

/-! Native operators on operands that fit their static types: the result fits the type that the
factory computed, and needs no cell of the store. -/
namespace ExprTree

variable {α : Type} {Q R : α → Prop} {F : EvalError → Prop} {r : Except Fault α}

theorem Lands.and (h : Lands Q F r) (h' : ∀ a, r = .ok a → R a) :
    Lands (fun a => Q a ∧ R a) F r := by
  rcases r with e | a
  · cases e <;> exact h
  · exact ⟨h, h' a rfl⟩

theorem Lands.of_ok {a : α} (h : Lands Q F r) (ha : r = .ok a) : Q a := by
  subst ha
  exact h

/-- The types whose values are numbers, characters, texts and truth values. -/
def Ty.isScalar : Ty → Bool
  | .bool | .char | .int _ | .float32 | .float64 | .decimal | .str => true
  | _ => false

/-- Whether the value means the same in every store: it names no array and no delegate. -/
def Value.isAtom : Value → Bool
  | .array .. | .delegate .. => false
  | _ => true

namespace Value

variable {a b c v : Value} {t : Ty}

theorem isAtom_of_scalar (h : v.runtimeType.isScalar) : v.isAtom := by
  cases v <;> first | rfl | cases h

@[simp] theorem isAtom_zero : (zero t).isAtom := by
  cases t <;> rfl

/-- Values of one type stand in the same places. -/
theorem fits_congr (h : v.runtimeType = a.runtimeType) (ha : a.fits t) : v.fits t := by
  rcases fits_iff.mp ha with rfl | ⟨rfl, ht⟩ | ht
  · exact fits_void
  · obtain rfl : v = .null := by cases v <;> simp_all [runtimeType, Signature.ty]
    exact ha
  · exact fits_iff.mpr (Or.inr (Or.inr (h ▸ ht)))

theorem str?_isSome : v.str?.isSome ↔ ∃ s, v = .str s := by
  cases v <;> simp [str?]

theorem scalar_of_numKind? {k : NumKind} (h : v.numKind? = some k) : v.runtimeType.isScalar := by
  cases v <;> first | rfl | cases h

/-- Only texts are of a type that takes texts and is not `object`. -/
theorem str_fits {s : String} (h : (Value.str s).fits t) : t = .void ∨ t = .object ∨ t = .str := by
  rcases fits_iff.mp h with h | ⟨h, _⟩ | h
  · exact Or.inl h
  · cases h
  · rcases Ty.accepts_iff.mp h with h | ⟨h, _⟩ | ⟨_, _, _, h, _⟩
    · exact Or.inr (Or.inr h)
    · exact Or.inr (Or.inl h)
    · cases h

theorem null_or_str (h : v.fits .str) : v = .null ∨ ∃ s, v = .str s := by
  refine (null_or_exact h (by simp) (by simp) rfl).imp And.left fun h => ?_
  cases v <;> first | exact ⟨_, rfl⟩ | simp [runtimeType, Signature.ty] at h

/-! ### Operands -/

/-- Every operator between two kinds that has a rule is one between scalars. -/
theorem kindBinary_scalar {op : NodeKind} (h : kindBinary op a b = .ok v) :
    a.runtimeType.isScalar ∧ b.runtimeType.isScalar := by
  unfold kindBinary at h
  split at h <;> first | exact ⟨rfl, rfl⟩ | cases h

theorem coerced_scalar {op : NodeKind} (h : NodeKind.applyBinary.coerced op a b = .ok v) :
    a.runtimeType.isScalar ∧ b.runtimeType.isScalar := by
  unfold NodeKind.applyBinary.coerced at h
  split at h
  · rename_i k hk
    refine ⟨scalar_of_numKind? hk, ?_⟩
    cases hb : b.numKind? with
    | some l => exact scalar_of_numKind? hb
    | none =>
      have hc : b.coerce k = .ok b := by simp [coerce, hb]
      rw [hc] at h
      exact (kindBinary_scalar h).2
  · exact kindBinary_scalar h

theorem shift_scalar {op : Arith} (h : shift op a b = .ok v) : a.runtimeType.isScalar := by
  unfold shift at h
  rcases hc : b.coerce (.int .i32) with e | c
  · simp [hc, bind, Except.bind] at h
  · simp only [hc, bind, Except.bind] at h
    split at h
    · split at h
      · rfl
      · cases h
    · cases h

/-- A plus with a text apart, an operator takes scalars and gives one. -/
theorem applyBinary_scalar {op : Arith} {s : Store}
    (hs : ¬(op = .add ∧ (a.str?.isSome || b.str?.isSome)))
    (h : NodeKind.applyBinary (.binary (.arith op)) s a b = .ok v) :
    a.runtimeType.isScalar ∧ (op = .add → b.runtimeType.isScalar) := by
  cases op with
  | add =>
    have hn : (a.str?.isSome || b.str?.isSome) = false := by simpa using hs
    simp only [NodeKind.applyBinary, hn] at h
    exact (coerced_scalar h).imp id fun hb _ => hb
  | shiftLeft => exact ⟨shift_scalar h, by simp⟩
  | shiftRight => exact ⟨shift_scalar h, by simp⟩
  | _ => exact ⟨(coerced_scalar h).1, by simp⟩

end Value

open Value

variable {a b v : Value} {l r t : Ty} {s : Store}

/-- A plus whose right operand may turn out to be a text that the left operand's type does not
fit. -/
def HidesText (op : Arith) (l r : Ty) : Prop :=
  op = .add ∧ (r = .str ∨ r = .object) ∧ l ≠ .str ∧ l ≠ .object

/-- The text that a plus gives fits the left operand's type too. -/
theorem text_fits {op : Arith} (ht : Build.arithType op l r = .ok t) (ha : a.fits l) (hb : b.fits r)
    (hr : ¬HidesText op l r) (hs : op = .add ∧ (a.str?.isSome || b.str?.isSome))
    (hv : v.runtimeType = .str) : v.fits t ∧ v.fits l := by
  obtain ⟨rfl, hs⟩ := hs
  have hvs : v.fits .str := fits_of_runtimeType hv
  have hl : v.fits l := by
    by_cases hls : l = .str
    · exact hls ▸ hvs
    by_cases hlo : l = .object
    · exact hlo ▸ fits_object hvs (by simp)
    rcases Bool.or_eq_true_iff.mp hs with hs | hs
    · obtain ⟨x, rfl⟩ := str?_isSome.mp hs
      exact fits_congr (a := .str x) hv ha
    · obtain ⟨x, rfl⟩ := str?_isSome.mp hs
      obtain rfl : r = .void := (str_fits hb).resolve_right fun h => hr ⟨rfl, h.symm, hls, hlo⟩
      rcases Build.arithType_ok ht with ⟨_, h, _⟩ | ⟨_, h⟩
      · simp_all
      · exact absurd (h rfl).2 (by decide)
  rcases Build.arithType_ok ht with ⟨_, _, rfl⟩ | ⟨rfl, _⟩
  · exact ⟨hvs, hl⟩
  · exact ⟨hl, hl⟩

/-- A native operator gives what the factory says, which the left operand's place may hold. -/
theorem applyBinary_fits {op : Arith} (ht : Build.arithType op l r = .ok t) (ha : a.fits l)
    (hb : b.fits r) (hr : ¬HidesText op l r) :
    Lands (fun v => (v.fits t ∧ v.fits l) ∧ v.isAtom) (·.isOperand)
      (NodeKind.applyBinary (.binary (.arith op)) s a b) := by
  refine (applyBinary_gives.and fun _ h => h).mono ?_ fun _ h => h
  rintro v ⟨hv, hok⟩
  by_cases hs : op = .add ∧ (a.str?.isSome || b.str?.isSome)
  · rw [NodeKind.binaryTy, if_pos (by simpa using hs)] at hv
    exact ⟨text_fits ht ha hb hr hs hv, isAtom_of_scalar (hv ▸ rfl)⟩
  · rw [NodeKind.binaryTy, if_neg (by simpa using hs)] at hv
    have hva : v.runtimeType = a.runtimeType := hv
    obtain ⟨has, hbs⟩ := applyBinary_scalar hs hok
    have hl : v.fits l := fits_congr hva ha
    refine ⟨⟨?_, hl⟩, isAtom_of_scalar (hva ▸ has)⟩
    rcases Build.arithType_ok ht with ⟨rfl, h | h, rfl⟩ | ⟨rfl, _⟩
    · exact h ▸ hl
    · -- The right operand is neither null, having a rule, nor a text.
      subst h
      rcases null_or_str hb with rfl | ⟨x, rfl⟩
      · exact absurd (hbs rfl) (by decide)
      · exact absurd ⟨rfl, by simp [str?]⟩ hs
    · exact hl

theorem compare_fits {c : Comparison} :
    Lands (fun v => v.fits .bool ∧ v.isAtom) (·.isOperand)
      (NodeKind.applyBinary (.binary (.compare c)) s a b) :=
  applyBinary_gives.mono (fun _ hv => ⟨fits_of_runtimeType hv, isAtom_of_scalar (hv ▸ rfl)⟩)
    fun _ h => h

/-! ### Unary operators -/

theorem applyUnary_scalar {op : NodeKind} (ho : op ≠ .unary (.arith .arrayLength))
    (h : op.applyUnary s a = .ok v) : a.runtimeType.isScalar := by
  cases a with
  | array e addr =>
    simp only [NodeKind.applyUnary, arrayUnary] at h
    cases h
  | bool | int | float32 | float64 | decimal => rfl
  | _ => cases h

/-- But for a length, a native operator gives what its operand is. -/
theorem applyUnary_fits {op : NodeKind} (ho : op ≠ .unary (.arith .arrayLength)) (ha : a.fits t) :
    Lands (fun v => v.fits t ∧ v.isAtom) (·.isOperand) (op.applyUnary s a) := by
  refine (applyUnary_gives.and fun _ h => applyUnary_scalar ho h).mono ?_ fun _ h => h
  rintro v ⟨hv, ha'⟩
  have hva : v.runtimeType = a.runtimeType := by
    cases a <;> first | exact hv | cases ha'
  exact ⟨fits_congr hva ha, isAtom_of_scalar (hva ▸ ha')⟩

theorem truth_fits {op : NodeKind}
    (ho : op = .unary (.arith .isTrue) ∨ op = .unary (.arith .isFalse)) :
    Lands (fun v => v.fits .bool ∧ v.isAtom) (·.isOperand) (op.applyUnary s a) := by
  have hb (b : Bool) : (Value.bool b).fits .bool ∧ (Value.bool b).isAtom := ⟨fits_runtimeType, rfl⟩
  rcases ho with rfl | rfl <;> cases a <;> first | exact hb _ | rfl

theorem length_fits {e : Ty} (ha : a.fits (.array e)) (hn : a.isNull = false) :
    Lands (fun v => v.fits (.int .i32) ∧ v.isAtom) (·.isOperand)
      (NodeKind.applyUnary (.unary (.arith .arrayLength)) s a) := by
  refine applyUnary_gives.mono ?_ fun _ h => h
  intro v hv
  obtain rfl | ⟨addr, rfl⟩ := fits_array ha
  · cases hn
  · exact ⟨fits_of_runtimeType hv, isAtom_of_scalar (hv ▸ rfl)⟩

/-! ### Conversions -/

theorem kind_isScalar {k : NumKind} : k.ty.isScalar := by
  cases k <;> rfl

/-- A conversion makes an atom or leaves the value as it is. -/
theorem convert_atom {checked : Bool} (h : a.convert t checked = .ok v) : v = a ∨ v.isAtom := by
  unfold convert at h
  split at h
  · cases h
    exact Or.inr rfl
  · split at h
    · exact Or.inr (isAtom_of_scalar (Wide.toNumber_converts.of_ok h ▸ kind_isScalar))
    · exact Or.inr (isAtom_of_scalar (Wide.toChar_converts.of_ok h ▸ rfl))
    · unfold convertReference at h
      split at h
      · split at h <;> cases h
        exact Or.inr rfl
      · split at h <;> cases h
        exact Or.inl rfl

theorem unbox_eq (h : a.unbox t = .ok v) : v = a := by
  unfold unbox at h
  split at h
  · cases h
  · split at h <;> cases h
    rfl

theorem typeAs_atom : a.typeAs t = a ∨ (a.typeAs t).isAtom := by
  unfold typeAs
  split
  · exact Or.inl rfl
  · exact Or.inr rfl

end ExprTree
