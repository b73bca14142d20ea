import ExprTree.Host.Scripted
import ExprTree.Proofs.IntegerArithmetic
import ExprTree.Proofs.Plan

/-! Checked arithmetic on integers of two kinds. The right operand is wrapped to the left kind
first, and from there on the result is exact or an exception, which a compound assignment raises
before it writes. -/
namespace ExprTree

/-- The operation of integers that a checked operator does without loss. -/
def Arith.checked? : Arith → Option (Int → Int → Int)
  | .addChecked => some (· + ·)
  | .subtractChecked => some (· - ·)
  | .multiplyChecked => some (· * ·)
  | _ => none

section

variable {k j : IntKind} {op : Arith} {f : Int → Int → Int} {a c : Word k} {b : Word j} {s : Store}

theorem Word.arith_checked (h : op.checked? = some f) :
    ∃ operation, a.arith op c = orOverflow (ofInt? k (f a.toInt c.toInt)) operation := by
  cases op <;> cases h <;> exact ⟨_, rfl⟩

theorem fits_checked (h : op.checked? = some f) : Fits k (f a.toInt (Word.wrap k b.toInt).toInt)
    (NodeKind.applyBinary (.binary (.arith op)) s (.int k a) (.int j b)) := by
  have hl : op ≠ .shiftLeft := by
    rintro rfl
    cases h
  have hr : op ≠ .shiftRight := by
    rintro rfl
    cases h
  obtain ⟨operation, ho⟩ := Word.arith_checked (a := a) (c := .wrap k b.toInt) h
  rw [applyBinary_int hl hr, ho]
  exact fits_ofInt?

end

/-! ### Compound assignments -/

namespace Evaluator

variable (ev : Evaluator)

/-- The place of the target, its value, and that of the right operand. -/
def compoundOperands (target right : Node) : Eval (Place × Value × Value) := do
  let place ← ev.place target
  let a ← ev.read place
  let b ← ev.eval right
  return (place, a, b)

/-- What a compound assignment makes of the value of its target and that of its right operand. -/
def combine (op : Arith) (m : Option Method) (conversion : Option Lambda)
    (a b : Value) : Eval Value := do
  let v ← ev.applyBinary (.binary (.arith op)) m a b
  match m, conversion with
  | some _, some f => ev.convertBy f v
  | _, _ => return v

/-- Writes the value that an operator gives, or raises what it raises. -/
def storeResult (place : Place) (r : Except Fault Value) : Eval Value := do
  let v ← Eval.ofExcept r
  ev.write place v
  return v

variable {ev} {target right : Node} {s t : State} {place : Place} {a b : Value} {op : Arith}
  {id : Nat} {ty : Ty} {m : Option Method} {conversion : Option Lambda} {k : IntKind} {n : Int}
  {r : Except Fault Value}

theorem compound_runs (h : ev.compoundOperands target right s = .value (place, a, b) t) :
    ev.node (.binary id (.compound op) target right m conversion ty) s =
      (do let v ← ev.combine op m conversion a b; ev.write place v; return v : Eval Value) t := by
  have hcompound : ev.node (.binary id (.compound op) target right m conversion ty) =
      ev.compoundOperands target right >>= fun x =>
        (do
          let v ← ev.combine op m conversion x.2.1 x.2.2
          ev.write x.1 v
          return v : Eval Value) := by
    simp only [node, evalBinary, compound, compoundOperands, combine, bind_assoc, pure_bind]
    cases m <;> cases conversion <;> rfl
  rw [hcompound]
  change Eval.bind _ _ s = _
  rw [Eval.bind, h]

theorem compound_eq (h : ev.compoundOperands target right s = .value (place, a, b) t) :
    ev.node (.binary id (.compound op) target right none conversion ty) s =
      ev.storeResult place (NodeKind.applyBinary (.binary (.arith op)) t.store a b) t := by
  rw [compound_runs h]
  simp only [combine, applyBinary, storeResult, bind_assoc, pure_bind]
  rfl

/-- An exact result is written, and one out of range is an exception before the write. -/
theorem storeResult_fits (h : Fits k n r) :
    (k.min ≤ n ∧ n ≤ k.max → ∃ c : Word k, c.toInt = n ∧
      ev.storeResult place r t = (do ev.write place (.int k c); return .int k c : Eval Value) t) ∧
    (¬(k.min ≤ n ∧ n ≤ k.max) →
      ∃ operation, ev.storeResult place r t = Eval.fault (.overflow operation) t) := by
  refine ⟨fun hin => ?_, fun hout => ?_⟩
  · obtain ⟨c, rfl, hc⟩ := h.exact hin
    exact ⟨c, hc, rfl⟩
  · obtain ⟨operation, rfl⟩ := h.overflows.mpr hout
    exact ⟨operation, rfl⟩

end Evaluator

/-- A checked operator on integers of any two kinds takes for the right operand the word of the left
kind that is congruent to it, which is the same integer unless that is out of range. Its result with
that word is exact, or an exception is raised. A compound assignment writes the exact result, or
raises the exception and writes nothing. -/
theorem checked_arithmetic {op : Arith} {f : Int → Int → Int} (hf : op.checked? = some f)
    {k j : IntKind} (a : Word k) (b : Word j) {c : Word k}
    (hc : c.toInt ≡ b.toInt [ZMOD 2 ^ k.bits]) :
    let n := f a.toInt c.toInt
    (k.min ≤ b.toInt ∧ b.toInt ≤ k.max → n = f a.toInt b.toInt) ∧
    (∀ s : Store, Fits k n (NodeKind.applyBinary (.binary (.arith op)) s (.int k a) (.int j b))) ∧
    ∀ (ev : Evaluator) (target right : Node) (s t : State) (place : Place),
      ev.compoundOperands target right s = .value (place, .int k a, .int j b) t →
      ∀ (id : Nat) (conversion : Option Lambda) (ty : Ty),
        let compound := ev.node (.binary id (.compound op) target right none conversion ty) s
        (k.min ≤ n ∧ n ≤ k.max → ∃ r : Word k, r.toInt = n ∧
          compound = (do ev.write place (.int k r); return .int k r : Eval Value) t) ∧
        (¬(k.min ≤ n ∧ n ≤ k.max) →
          ∃ operation, compound = Eval.fault (.overflow operation) t) := by
  intro n
  obtain rfl : c = .wrap k b.toInt := by
    rw [Word.eq_wrap_iff, k.modulus_eq]
    exact hc
  refine ⟨fun hb => ?_, fun s => fits_checked hf,
    fun ev target right s t place h id conversion ty => ?_⟩
  · exact congrArg (f a.toInt) (Word.wrap_of_range hb.1 hb.2)
  · dsimp only
    rw [Evaluator.compound_eq h]
    exact Evaluator.storeResult_fits (fits_checked hf)

/-- A byte of 200 can be raised by 55, and by 56 it is left as it is. -/
theorem byte_raised_to_its_maximum :
    let x : Param := ⟨0, none, .int .u8⟩
    let byte (n : Int) : Value := .int .u8 (.wrap .u8 n)
    let s (steps : Nat) (n : Int) : State :=
      { State.start none {} with env := .ofCaptures [(0, byte n)], steps }
    let right (n : Int) : Node := .constant 1 (.int .i64 (.wrap .i64 n)) (.int .i64)
    let raise (n : Int) := (evaluator (Scripts.host {}) 1).node
      (.binary 2 (.compound .addChecked) (.param x) (right n) none none (.int .u8)) (s 0 200)
    raise 55 = .value (byte 255) (s 1 255) ∧
      ∃ operation, raise 56 = Eval.fault (.overflow operation) (s 1 200) := by
  intro x byte s right raise
  have hchecked : Arith.addChecked.checked? = some (· + ·) := rfl
  have h (n : Int)
      (hn : (Word.wrap .u8 n).toInt ≡ (Word.wrap .i64 n).toInt [ZMOD 2 ^ IntKind.u8.bits]) :=
    (checked_arithmetic hchecked (Word.wrap .u8 200) (Word.wrap .i64 n) hn).2.2
      (evaluator (Scripts.host {}) 1) (.param x)
      (right n) (s 0 200) (s 1 200) (.slot x) rfl 2 none (.int .u8)
  obtain ⟨r, hr, hraise⟩ := (h 55 (by decide)).1 (by decide)
  obtain rfl : r = .wrap .u8 255 := Word.ext hr
  exact ⟨hraise, (h 56 (by decide)).2 (by decide)⟩

/-- The sum of one and 256 is out of range of 8 bits, but 256 becomes zero before it is added. -/
theorem narrowed_before_the_check :
    let a : Word .i8 := .wrap .i8 1
    let b : Word .i32 := .wrap .i32 256
    ¬Fits .i8 (a.toInt + b.toInt)
      (NodeKind.applyBinary (.binary (.arith .addChecked)) {} (.int .i8 a) (.int .i32 b)) := by
  intro a b h
  obtain ⟨operation, ho⟩ := h.overflows.mpr (by decide)
  have hsum :
      NodeKind.applyBinary (.binary (.arith .addChecked)) {} (.int .i8 a) (.int .i32 b) =
        .ok (.int .i8 a) :=
    rfl
  exact nomatch hsum.symm.trans ho

end ExprTree
