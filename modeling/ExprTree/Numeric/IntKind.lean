/-! The eight integer kinds, and their words: integers in range, with wrapping and exact
arithmetic side by side. -/
namespace ExprTree

inductive IntKind where
  | i8 | u8 | i16 | u16 | i32 | u32 | i64 | u64
  deriving DecidableEq

namespace IntKind

def name : IntKind → String
  | .i8 => "i8" | .u8 => "u8" | .i16 => "i16" | .u16 => "u16"
  | .i32 => "i32" | .u32 => "u32" | .i64 => "i64" | .u64 => "u64"

def all : List IntKind := [.i8, .u8, .i16, .u16, .i32, .u32, .i64, .u64]

def ofName? (s : String) : Option IntKind := all.find? fun k => k.name == s

def bits : IntKind → Nat
  | .i8 | .u8 => 8
  | .i16 | .u16 => 16
  | .i32 | .u32 => 32
  | .i64 | .u64 => 64

def signed : IntKind → Bool
  | .i8 | .i16 | .i32 | .i64 => true
  | .u8 | .u16 | .u32 | .u64 => false

/-- The number of words of a kind. -/
def modulus : IntKind → Int
  | .i8 | .u8 => 256
  | .i16 | .u16 => 65536
  | .i32 | .u32 => 4294967296
  | .i64 | .u64 => 18446744073709551616

def min : IntKind → Int
  | .i8 => -128
  | .i16 => -32768
  | .i32 => -2147483648
  | .i64 => -9223372036854775808
  | .u8 | .u16 | .u32 | .u64 => 0

def max (k : IntKind) : Int := k.min + k.modulus - 1

theorem modulus_eq (k : IntKind) : k.modulus = Nat.pow 2 k.bits := by cases k <;> rfl

theorem modulus_pos (k : IntKind) : 0 < k.modulus := by cases k <;> decide

theorem min_le_zero (k : IntKind) : k.min ≤ 0 := by cases k <;> decide

theorem zero_le_max (k : IntKind) : 0 ≤ k.max := by cases k <;> decide

end IntKind

/-- An integer in the range of its kind. -/
structure Word (k : IntKind) where
  toInt : Int
  min_le : k.min ≤ toInt
  le_max : toInt ≤ k.max
  deriving DecidableEq

namespace Word

variable {k : IntKind}

@[ext] theorem ext {a b : Word k} (h : a.toInt = b.toInt) : a = b := by
  cases a; cases b; simp_all

/-- The word of an integer in range. -/
def ofInt? (k : IntKind) (n : Int) : Option (Word k) :=
  if h : k.min ≤ n ∧ n ≤ k.max then some ⟨n, h.1, h.2⟩ else none

/-- The word congruent to `n`. -/
def wrap (k : IntKind) (n : Int) : Word k where
  toInt := (n - k.min) % k.modulus + k.min
  min_le := by have := Int.emod_nonneg (n - k.min) (Int.ne_of_gt k.modulus_pos); omega
  le_max := by
    have := Int.emod_lt_of_pos (n - k.min) k.modulus_pos
    simp only [IntKind.max]
    omega

theorem ofInt?_eq_some {n : Int} {w : Word k} : ofInt? k n = some w ↔ w.toInt = n := by
  unfold ofInt?
  constructor
  · intro h
    split at h <;> simp_all
    exact h ▸ rfl
  · intro h
    subst h
    simp [w.min_le, w.le_max]

theorem wrap_of_range {n : Int} (lo : k.min ≤ n) (hi : n ≤ k.max) : (wrap k n).toInt = n := by
  simp only [wrap]
  rw [Int.emod_eq_of_lt] <;> simp only [IntKind.max] at hi <;> omega

@[simp] theorem wrap_toInt (a : Word k) : wrap k a.toInt = a :=
  Word.ext (wrap_of_range a.min_le a.le_max)

def zero (k : IntKind) : Word k := ⟨0, k.min_le_zero, k.zero_le_max⟩

def add (a b : Word k) : Word k := wrap k (a.toInt + b.toInt)
def sub (a b : Word k) : Word k := wrap k (a.toInt - b.toInt)
def mul (a b : Word k) : Word k := wrap k (a.toInt * b.toInt)
def neg (a : Word k) : Word k := wrap k (-a.toInt)

def add? (a b : Word k) : Option (Word k) := ofInt? k (a.toInt + b.toInt)
def sub? (a b : Word k) : Option (Word k) := ofInt? k (a.toInt - b.toInt)
def mul? (a b : Word k) : Option (Word k) := ofInt? k (a.toInt * b.toInt)
def neg? (a : Word k) : Option (Word k) := ofInt? k (-a.toInt)

/-- The quotient truncated toward zero; the smallest word over `-1` is out of range. -/
def div? (a b : Word k) : Option (Word k) := ofInt? k (a.toInt.tdiv b.toInt)

/-- The remainder of the truncated quotient, defined where that quotient is. -/
def rem? (a b : Word k) : Option (Word k) :=
  if (a.div? b).isSome then ofInt? k (a.toInt.tmod b.toInt) else none

/-- The word of `a` to the power `n`, by repeated squaring. -/
def pow (a : Word k) (n : Nat) : Word k :=
  if h : n = 0 then wrap k 1
  else
    let half := (a.mul a).pow (n / 2)
    if n % 2 = 1 then a.mul half else half
termination_by n
decreasing_by omega

/-- The word read as an unsigned number of the same bits. -/
def pattern (a : Word k) : Nat := (a.toInt % k.modulus).toNat

def and (a b : Word k) : Word k := wrap k (a.pattern &&& b.pattern : Nat)
def or (a b : Word k) : Word k := wrap k (a.pattern ||| b.pattern : Nat)
def xor (a b : Word k) : Word k := wrap k (a.pattern ^^^ b.pattern : Nat)
def complement (a : Word k) : Word k := wrap k (-a.toInt - 1)

/-- A shift count of any size is taken modulo the width. -/
def shiftCount (k : IntKind) (n : Int) : Nat := (n % k.bits).toNat

def shiftLeft (a : Word k) (n : Int) : Word k := wrap k (a.toInt * Nat.pow 2 (shiftCount k n))
def shiftRight (a : Word k) (n : Int) : Word k := wrap k (a.toInt / Nat.pow 2 (shiftCount k n))

end Word

end ExprTree
