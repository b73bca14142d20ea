import ExprTree.Operator.Binary
import ExprTree.Proofs.Numbers

/-! Default equality by what values stand for: numbers for the number, other scalars for themselves,
and references for what they lead to. -/
namespace ExprTree

/-- Where a reference leads: to a cell of the store, or to a quoted tree. -/
inductive Reference where
  | array (addr : Nat) | list (addr : Nat) | object (addr : Nat) | delegate (addr : Nat)
  | tree (i : Identity)

/-- What is left of a value when it is compared. -/
inductive Denotation where
  | void | null
  | bool (b : Bool)
  | char (c : Char)
  | text (s : String)
  | number (q : ℚ)
  | reference (r : Reference)

namespace Value

def isFloat : Value → Bool
  | .float32 _ | .float64 _ => true
  | _ => false

def reference? : Value → Option Reference
  | .array _ a => some (.array a)
  | .list _ a => some (.list a)
  | .object _ a => some (.object a)
  | .delegate _ a => some (.delegate a)
  | .expr n => some (.tree n.identity)
  | _ => none

/-- Floats are compared in a way of their own. -/
def denotes? : Value → Option Denotation
  | .void => some .void
  | .null => some .null
  | .bool b => some (.bool b)
  | .char c => some (.char c)
  | .str s => some (.text s)
  | .float32 _ | .float64 _ => none
  | v => (v.number?.map .number).or (v.reference?.map .reference)

variable {a b : Value} {p q : ℚ} {r r' : Reference}

/-! ### Numbers -/

theorem eqv_int_decimal {k : IntKind} {w : Word k} {d : Decimal} :
    (Wide.int w.toInt).eqv (.decimal d) = true ↔ (w.toInt : ℚ) = d.number := by
  obtain ⟨e, he, hn⟩ := Decimal.ofInt?_word w
  simp [Wide.eqv, he, Decimal.compare_eq_eq, hn]

theorem eqv_decimal_int {k : IntKind} {w : Word k} {d : Decimal} :
    (Wide.decimal d).eqv (.int w.toInt) = true ↔ d.number = w.toInt := by
  rw [eq_comm (a := d.number)]
  exact eqv_int_decimal

/-- Numbers are equal as such, whatever their kinds and scales. -/
theorem valuesEqual_number (ha : a.number? = some p) (hb : b.number? = some q) :
    a.valuesEqual b = true ↔ p = q := by
  rcases exact_of_number? ha with ⟨k, v, rfl, rfl⟩ | ⟨d, rfl, rfl⟩ <;>
    rcases exact_of_number? hb with ⟨l, w, rfl, rfl⟩ | ⟨e, rfl, rfl⟩
  · by_cases h : k = l
    · simp [valuesEqual, numKind?, eqv, h]
    · simp [valuesEqual, numKind?, Wide.of?, Wide.eqv, h]
  · exact eqv_int_decimal
  · exact eqv_decimal_int
  · simp [valuesEqual, numKind?, eqv, Decimal.compare_eq_eq]

/-! ### All values -/

/-- A value without a number is equal to what has the same sort and content. -/
theorem eqv_iff (ha : a.isFloat = false) (hb : b.isFloat = false)
    (h : a.number? = none ∨ b.number? = none) : a.eqv b = true ↔ a.denotes? = b.denotes? := by
  cases a <;> cases b <;>
    simp_all [isFloat, number?, eqv, sameReference, Node.same, denotes?, reference?]

theorem numKind?_eq_none (hf : a.isFloat = false) (h : a.number? = none) : a.numKind? = none := by
  cases a <;> simp_all [isFloat, number?, numKind?]

theorem valuesEqual_eq_eqv (ha : a.isFloat = false) (hb : b.isFloat = false)
    (h : a.number? = none ∨ b.number? = none) : a.valuesEqual b = a.eqv b := by
  unfold valuesEqual
  rcases h with h | h
  · rw [numKind?_eq_none ha h]
  · rw [numKind?_eq_none hb h]
    cases a.numKind? <;> rfl

theorem denotes?_number (h : a.number? = some p) : a.denotes? = some (.number p) := by
  rcases exact_of_number? h with ⟨k, w, rfl, rfl⟩ | ⟨d, rfl, rfl⟩ <;> rfl

theorem denotes?_reference (h : a.reference? = some r) :
    a.isFloat = false ∧ a.denotes? = some (.reference r) := by
  cases a with
  | array e addr | list e addr | object c addr | delegate sig addr | expr n =>
    cases h
    exact ⟨rfl, rfl⟩
  | _ => cases h

/-- Values other than floats are equal when they stand for the same. -/
theorem valuesEqual_iff (ha : a.isFloat = false) (hb : b.isFloat = false) :
    a.valuesEqual b = true ↔ a.denotes? = b.denotes? := by
  cases hp : a.number? with
  | none => rw [valuesEqual_eq_eqv ha hb (.inl hp), eqv_iff ha hb (.inl hp)]
  | some p =>
    cases hq : b.number? with
    | none => rw [valuesEqual_eq_eqv ha hb (.inr hq), eqv_iff ha hb (.inr hq)]
    | some q =>
      rw [valuesEqual_number hp hq, denotes?_number hp, denotes?_number hq]
      simp

theorem valuesEqual_reference (ha : a.reference? = some r) (hb : b.reference? = some r') :
    a.valuesEqual b = true ↔ r = r' := by
  obtain ⟨hf, hd⟩ := denotes?_reference ha
  obtain ⟨hf', hd'⟩ := denotes?_reference hb
  rw [valuesEqual_iff hf hf', hd, hd']
  simp

end Value

/-! ### Cells -/

namespace Store

/-- The cell is one of the store's; quoted trees are everywhere. -/
def Has (s : Store) : Reference → Prop
  | .array a => a < s.arrays.size
  | .list a => a < s.lists.size
  | .object a => a < s.objects.size
  | .delegate a => a < s.delegates.size
  | .tree _ => True

/-- The store comes to have a cell more, to which the value refers. -/
inductive Makes (s : Store) : Value → Store → Prop
  | array (elem : Ty) (items : Array Value) :
    Makes s (s.newArray elem items).1 (s.newArray elem items).2
  | list (elem : Ty) (items : Array Value) :
    Makes s (s.newList elem items).1 (s.newList elem items).2
  | object (c : ClassType) (fs : Fields) : Makes s (s.newObject c fs).1 (s.newObject c fs).2
  | delegate (sig : Signature) (body : DelegateBody) :
    Makes s (s.newDelegate sig body).1 (s.newDelegate sig body).2

theorem Makes.fresh {s t : Store} {v : Value} (h : s.Makes v t) :
    ∃ r, v.reference? = some r ∧ ¬s.Has r ∧ t.Has r := by
  cases h with
  | array elem items => exact ⟨_, rfl, Nat.lt_irrefl _, by simp [Has, newArray]⟩
  | list elem items => exact ⟨_, rfl, Nat.lt_irrefl _, by simp [Has, newList]⟩
  | object c fs => exact ⟨_, rfl, Nat.lt_irrefl _, by simp [Has, newObject]⟩
  | delegate sig body => exact ⟨_, rfl, Nat.lt_irrefl _, by simp [Has, newDelegate]⟩

end Store

/-- Default equality is an equivalence relation on all values but floats. Integers and decimals are
equal when they are the same number, and references when they lead to the same cell or tree, of
which a new one is none that there was before. The two operators have it and its negation for all
values, whatever the store holds. -/
theorem default_equality :
    (Equivalence fun a b : {v : Value // v.isFloat = false} => a.1.valuesEqual b.1 = true) ∧
    (∀ (a b : Value) (p q : ℚ), a.number? = some p → b.number? = some q →
      (a.valuesEqual b = true ↔ p = q)) ∧
    (∀ (a b : Value) (r r' : Reference), a.reference? = some r → b.reference? = some r' →
      (a.valuesEqual b = true ↔ r = r')) ∧
    (∀ (s t : Store) (a b : Value) (r : Reference), a.reference? = some r → s.Has r → s.Makes b t →
      a.valuesEqual b = false) ∧
    ∀ (s : Store) (a b : Value),
      NodeKind.applyBinary (.binary (.compare .equal)) s a b = .ok (.bool (a.valuesEqual b)) ∧
      NodeKind.applyBinary (.binary (.compare .notEqual)) s a b =
        .ok (.bool (!a.valuesEqual b)) := by
  refine ⟨⟨fun a => ?_, fun {a b} h => ?_, fun {a b c} h h' => ?_⟩,
    fun a b p q => Value.valuesEqual_number,
    fun a b r r' => Value.valuesEqual_reference, fun s t a b r ha hr hb => ?_,
    fun s a b => ⟨rfl, rfl⟩⟩
  · exact (Value.valuesEqual_iff a.2 a.2).mpr rfl
  · rw [Value.valuesEqual_iff a.2 b.2] at h
    exact (Value.valuesEqual_iff b.2 a.2).mpr h.symm
  · rw [Value.valuesEqual_iff a.2 b.2] at h
    rw [Value.valuesEqual_iff b.2 c.2] at h'
    exact (Value.valuesEqual_iff a.2 c.2).mpr (h.trans h')
  · obtain ⟨r', hb', hnew, -⟩ := hb.fresh
    rw [← Bool.not_eq_true, Value.valuesEqual_reference ha hb']
    rintro rfl
    exact hnew hr

/-- One is one as an integer and as a decimal of any scale. An array is not another one with the
same items. -/
theorem one_at_any_scale :
    let n : Value := .int .u64 (.wrap .u64 1)
    let d : Value := .decimal ⟨false, 100, 2, by decide, by decide⟩
    let items : Array Value := #[n, d]
    let made := ({} : Store).newArray .object items
    n.number? = some 1 ∧ d.number? = some 1 ∧ n.valuesEqual d = true ∧
    made.1.valuesEqual made.1 = true ∧
      made.2.Has (.array 0) ∧ made.1.valuesEqual (made.2.newArray .object items).1 = false := by
  intro n d items made
  have hn : n.number? = some 1 := by decide +kernel
  have hd : d.number? = some 1 := by decide +kernel
  have hhas : made.2.Has (.array 0) := Nat.one_pos
  obtain ⟨-, hnumbers, hreferences, hnew, -⟩ := default_equality
  exact ⟨hn, hd, (hnumbers _ _ _ _ hn hd).mpr rfl, (hreferences _ _ _ _ rfl rfl).mpr rfl, hhas,
    hnew made.2 _ made.1 _ _ rfl hhas (.array .object items)⟩

end ExprTree
