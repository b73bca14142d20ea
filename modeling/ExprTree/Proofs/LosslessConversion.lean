import ExprTree.Proofs.DefaultEquality
import ExprTree.Proofs.NumberConversions

/-! Conversions that lose nothing: of a value to its own type, and to an integer kind that holds its
number or its code and back. A code that is to become a character again has 16 bits at most. -/
namespace ExprTree

namespace Value

/-- The number of an integer, or the code of a character. -/
def ordinal? : Value → Option Int
  | .int _ w => some w.toInt
  | .char c => some c.toNat
  | _ => none

/-- Whether the value is a character whose code takes more than 16 bits. -/
def isSupplementary : Value → Bool
  | .char c => 65536 ≤ c.toNat
  | _ => false

end Value

namespace Wide

variable {k : IntKind} {w : Word k} {c d : Char} {n : Int} {checked : Bool} {operation : String}

theorem integral_int : (int n).integral checked operation = .ok (n, checked) := rfl

/-- A number in range is neither wrapped nor refused. -/
theorem toWord_word : (int w.toInt).toWord k checked = .ok w := by
  rw [toWord_eq integral_int]
  cases checked with
  | true =>
    have hw : Word.ofInt? k w.toInt = some w := Word.ofInt?_eq_some.mpr rfl
    rw [if_pos rfl, hw]
    rfl
  | false => exact congrArg Except.ok (Word.wrap_toInt w)

theorem toChar_code (h : c.toNat < 65536) : (int c.toNat).toChar checked = .ok (.char c) := by
  have hrange : ¬(checked && !(0 ≤ (c.toNat : Int) && (c.toNat : Int) < 65536)) = true := by
    simp [h]
  have hcode : ((c.toNat : Int) % 65536).toNat = c.toNat := by omega
  have hvalid : c.toNat.isValidChar := c.valid
  rw [toChar_eq integral_int, if_neg hrange, hcode, if_pos hvalid, Char.ofNat_toNat]

/-- A code of more bits is refused by a check. -/
theorem toChar_overflows (h : 65536 ≤ n) :
    (int n).toChar true = .error (.overflow "conversion to char") := by
  have hrange : (true && !(0 ≤ n && n < 65536)) = true := by
    have hlt : ¬n < 65536 := Int.not_lt.mpr h
    simp [hlt]
  rw [toChar_eq integral_int, if_pos hrange]

/-- Without a check a code is cut to 16 bits. -/
theorem toChar_cut (h : (int n).toChar false = .ok (.char d)) : (d.toNat : Int) = n % 65536 := by
  rw [toChar_eq integral_int, if_neg (by simp)] at h
  split at h
  · rename_i hvalid
    cases h
    have hcode : (Char.ofNat (n % 65536).toNat).toNat = (n % 65536).toNat := by
      rw [Char.ofNat, dif_pos hvalid]
      rfl
    omega
  · cases h

end Wide

namespace Value

variable {v : Value} {t : Ty} {k : IntKind} {n : Int} {checked : Bool}

/-- An ordinal is converted as the integer that it is. -/
theorem of?_ordinal (h : v.ordinal? = some n) : Wide.of? v = some (.int n) := by
  cases v <;> cases h <;> rfl

theorem convert_ordinal (h : v.ordinal? = some n) (k : IntKind) (checked : Bool) :
    v.convert (.int k) checked = (Wide.int n).toNumber (.int k) checked := by
  unfold convert
  rw [of?_ordinal h]
  rfl

/-- The kind that holds an ordinal has the word for it. -/
theorem convert_ordinal_word {w : Word k} (h : v.ordinal? = some w.toInt) :
    v.convert (.int k) checked = .ok (.int k w) := by
  rw [convert_ordinal h, Wide.toNumber, Wide.toWord_word]
  rfl

/-- What is neither a number nor a character and is an instance of the type stays as it is. -/
theorem convert_instance (hw : Wide.of? v = none) (h : v.isInstanceOf t) :
    v.convert t checked = .ok v := by
  have hn : v.isNull = false := by
    cases v <;> first | rfl | cases h
  have ht : t.isVoid = false := by
    cases v <;> cases t <;> first | rfl | cases h
  simp [convert, ht, hw, convertReference, hn, h]

/-- Numbers and characters are converted to their own type, too, before it is seen that nothing is
to be done. -/
theorem convert_self (hf : v.isFloat = false) (hs : v.isSupplementary = false) :
    v.convert v.runtimeType checked = .ok v := by
  cases v with
  | float32 x => cases hf
  | float64 x => cases hf
  | char c =>
    have hc : c.toNat < 65536 := by simpa [isSupplementary] using hs
    exact Wide.toChar_code hc
  | int k w => exact convert_ordinal_word rfl
  | void | null | decimal d => rfl
  | bool | str | array | list | object | delegate | expr =>
    refine convert_instance rfl ?_
    exact Ty.accepts_self _

/-- The kind that holds an ordinal gives it back. -/
theorem convert_back {w : Word k} (h : v.ordinal? = some w.toInt) (hs : v.isSupplementary = false) :
    (Value.int k w).convert v.runtimeType checked = .ok v := by
  cases v with
  | int j a =>
    have hn : (Value.int k w).ordinal? = some a.toInt := h.symm
    exact convert_ordinal_word hn
  | char c =>
    have hn : (c.toNat : Int) = w.toInt := Option.some.inj h
    have hc : c.toNat < 65536 := by simpa [isSupplementary] using hs
    change (Wide.int w.toInt).toChar checked = _
    rw [← hn, Wide.toChar_code hc]
  | _ => cases h

end Value

/-- Every value but a float converts to its own type as it is, and an integer or a character comes
back from whatever integer kind holds its number or its code: all but the characters beyond 16 bits.
These convert to their codes as well, but a check refuses the codes on the way back, and without a
check they are cut to 16 bits. -/
theorem conversions_lossless :
    (∀ (v : Value) (checked : Bool), v.isFloat = false → v.isSupplementary = false →
      v.convert v.runtimeType checked = .ok v) ∧
    (∀ (v : Value) (n : Int) (k : IntKind), v.ordinal? = some n → k.min ≤ n ∧ n ≤ k.max →
      ∃ w : Word k, w.toInt = n ∧
      (∀ checked : Bool, v.convert (.int k) checked = .ok (.int k w)) ∧
      (v.isSupplementary = false →
        ∀ checked : Bool, (Value.int k w).convert v.runtimeType checked = .ok v)) ∧
    ∀ (k : IntKind) (w : Word k), 65536 ≤ w.toInt → Overflows ((Value.int k w).convert .char true) ∧
      ∀ c : Char, (Value.int k w).convert .char false = .ok (.char c) →
      (c.toNat : Int) = w.toInt % 65536 := by
  refine ⟨fun v checked => Value.convert_self, fun v n k hn hk => ?_, fun k w hw =>
    ⟨?_, fun c hc => Wide.toChar_cut hc⟩⟩
  · let w : Word k := ⟨n, hk.1, hk.2⟩
    have hw : v.ordinal? = some w.toInt := hn
    exact ⟨w, rfl, fun checked => Value.convert_ordinal_word hw, fun hs checked =>
      Value.convert_back hw hs⟩
  · exact ⟨_, Wide.toChar_overflows hw⟩

/-- The character of the largest code that there is a way back from. -/
theorem last_short_character_kept :
    let v : Value := .char (Char.ofNat 65535)
    let code : Value := .int .u16 (.wrap .u16 65535)
    v.isFloat = false ∧ v.isSupplementary = false ∧ v.convert .char true = .ok v ∧
    v.ordinal? = some 65535 ∧
      v.convert (.int .u16) true = .ok code ∧ code.convert .char true = .ok v := by
  intro v code
  have hs : v.isSupplementary = false := by decide
  obtain ⟨hself, hback, -⟩ := conversions_lossless
  obtain ⟨w, hw, hcode, hchar⟩ := hback v 65535 .u16 rfl (by decide)
  obtain rfl : w = .wrap .u16 65535 := Word.ext hw
  exact ⟨rfl, hs, hself v true rfl hs, rfl, hcode true, hchar hs true⟩

/-- The character of code 70000 converts to that, from which no character is made. -/
theorem supplementary_character_lost :
    let v : Value := .char (Char.ofNat 70000)
    v.ordinal? = some 70000 ∧ IntKind.i32.min ≤ 70000 ∧ 70000 ≤ IntKind.i32.max ∧
      ¬∃ w : Word .i32, v.convert (.int .i32) true = .ok (.int .i32 w) ∧
        (Value.int .i32 w).convert v.runtimeType true = .ok v := by
  intro v
  refine ⟨rfl, by decide, by decide, ?_⟩
  rintro ⟨w, hw, hv⟩
  have hcode : v.convert (.int .i32) true = .ok (.int .i32 (.wrap .i32 70000)) := rfl
  rw [hcode] at hw
  cases hw
  exact nomatch hv

end ExprTree
