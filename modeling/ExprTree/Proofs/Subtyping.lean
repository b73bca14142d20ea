import ExprTree.Conversion

/-! Storability is an order on types, and a value stands where its type is declared. -/
namespace ExprTree

variable {c d e : ClassType} {t u w : Ty} {v : Value}

theorem ClassType.derivesFrom_iff :
    c.derivesFrom d ↔ c = d ∨ ∃ b, c.base? = some b ∧ b.derivesFrom d := by
  cases c <;> simp [derivesFrom, base?]

theorem ClassType.derivesFrom_trans (h : c.derivesFrom d) (h' : d.derivesFrom e) :
    c.derivesFrom e := by
  induction c with
  | root i n =>
    rw [derivesFrom_iff] at h
    obtain rfl | ⟨b, hb, _⟩ := h
    · exact h'
    · simp [base?] at hb
  | derived i n b ih =>
    rw [derivesFrom_iff] at h
    obtain rfl | ⟨b', hb, hd⟩ := h
    · exact h'
    · obtain rfl : b = b' := by simpa [base?] using hb
      rw [derivesFrom_iff]
      exact Or.inr ⟨b, rfl, ih hd⟩

namespace Ty

theorem accepts_iff : t.accepts u ↔ t = u ∨ (t = .object ∧ u ≠ .void) ∨
    ∃ c d, t = .cls c ∧ u = .cls d ∧ d.derivesFrom c := by
  cases t with
  | object => cases u <;> simp [accepts, isVoid]
  | cls c => cases u <;> simp [accepts]
  | _ => simp [accepts]

theorem accepts_trans (h : t.accepts u) (h' : u.accepts w) : t.accepts w := by
  rw [accepts_iff] at h h' ⊢
  rcases h with rfl | ⟨rfl, hu⟩ | ⟨c, d, rfl, rfl, hd⟩
  · exact h'
  · rcases h' with rfl | ⟨rfl, hw⟩ | ⟨_, d, rfl, rfl, _⟩
    · exact Or.inr (Or.inl ⟨rfl, hu⟩)
    · exact Or.inr (Or.inl ⟨rfl, hw⟩)
    · exact Or.inr (Or.inl ⟨rfl, by simp⟩)
  · rcases h' with rfl | ⟨hc, _⟩ | ⟨_, e, hc, rfl, he⟩
    · exact Or.inr (Or.inr ⟨c, d, rfl, rfl, hd⟩)
    · cases hc
    · obtain rfl : d = _ := by simpa using hc
      exact Or.inr (Or.inr ⟨c, e, rfl, rfl, ClassType.derivesFrom_trans he hd⟩)

theorem isReference_of_accepts (h : t.accepts u) (hu : u.isReference) : t.isReference := by
  rw [accepts_iff] at h
  rcases h with rfl | ⟨rfl, _⟩ | ⟨c, d, rfl, _⟩
  · exact hu
  · rfl
  · rfl

theorem ty_of_numKind? {k : NumKind} (h : t.numKind? = some k) : k.ty = t := by
  cases t <;> simp [numKind?] at h <;> subst h <;> rfl

end Ty

namespace Value

/-- Whether the value may stand where the type is declared: any value for void, null for a
reference, and else one whose own type is storable there. -/
def fits (v : Value) (t : Ty) : Bool :=
  t.isVoid || (v.isNull && t.isReference) || t.accepts v.runtimeType

theorem fits_iff :
    v.fits t ↔ t = .void ∨ (v = .null ∧ t.isReference) ∨ t.accepts v.runtimeType := by
  have hv : v.isNull ↔ v = .null := by cases v <;> simp [isNull]
  have ht : t.isVoid ↔ t = .void := by cases t <;> simp [Ty.isVoid]
  simp only [fits, Bool.or_eq_true, Bool.and_eq_true, hv, ht, or_assoc]

@[simp] theorem fits_void : v.fits .void := by simp [fits_iff]

theorem fits_runtimeType : v.fits v.runtimeType := by simp [fits_iff]

theorem fits_of_runtimeType (h : v.runtimeType = t) : v.fits t := h ▸ fits_runtimeType

theorem null_fits (h : t.isReference) : Value.null.fits t := by simp [fits_iff, h]

/-- A value stands wherever its declared type is storable. -/
theorem fits_of_accepts (h : t.accepts u) (hv : v.fits u) : v.fits t := by
  rw [fits_iff] at hv
  rcases hv with rfl | ⟨rfl, hu⟩ | hu
  · rw [Ty.accepts_iff] at h
    rcases h with rfl | ⟨_, hn⟩ | ⟨_, _, _, hc, _⟩
    · simp
    · exact absurd rfl hn
    · cases hc
  · exact null_fits (Ty.isReference_of_accepts h hu)
  · rw [fits_iff]
    exact Or.inr (Or.inr (Ty.accepts_trans h hu))

theorem fits_object (h : v.fits t) (ht : t ≠ .void) : v.fits .object := by
  refine fits_of_accepts ?_ h
  rw [Ty.accepts_iff]
  exact Or.inr (Or.inl ⟨rfl, ht⟩)

@[simp] theorem zero_fits : (zero t).fits t := by
  cases t <;> first | exact fits_runtimeType | exact null_fits rfl

theorem fits_of_isInstanceOf (h : v.isInstanceOf t) : v.fits t := by
  rw [fits_iff]
  refine Or.inr (Or.inr ?_)
  cases v <;> first | exact h | simp [isInstanceOf] at h

/-! ### What the values of a type are -/

/-- Void, `object` and the classes apart, a type has null and the values of just that type. -/
theorem null_or_exact (h : v.fits t) (hv : t ≠ .void) (ho : t ≠ .object) (hc : t.class? = none) :
    (v = .null ∧ t.isReference) ∨ v.runtimeType = t := by
  rw [fits_iff] at h
  rcases h with h | h | h
  · exact absurd h hv
  · exact Or.inl h
  · rw [Ty.accepts_iff] at h
    rcases h with h | ⟨h, _⟩ | ⟨_, _, rfl, _⟩
    · exact Or.inr h.symm
    · exact absurd h ho
    · simp [Ty.class?] at hc

theorem exact_of_numeric (h : v.fits t) (ht : t.isNumeric) : v.runtimeType = t := by
  have hc : t.class? = none := by cases t <;> first | rfl | cases ht
  rcases null_or_exact h (by rintro rfl; cases ht) (by rintro rfl; cases ht) hc with ⟨_, hr⟩ | h
  · cases t <;> simp_all [Ty.isNumeric, Ty.numKind?, Ty.isReference]
  · exact h

theorem fits_bool (h : v.fits .bool) : ∃ b, v = .bool b := by
  rcases null_or_exact h (by simp) (by simp) rfl with ⟨_, hr⟩ | h
  · cases hr
  · cases v <;> first | exact ⟨_, rfl⟩ | simp [runtimeType, Signature.ty] at h

theorem fits_int {k : IntKind} (h : v.fits (.int k)) : ∃ w, v = .int k w := by
  have hv := exact_of_numeric h rfl
  cases v with
  | int l w =>
    obtain rfl : l = k := by simpa [runtimeType] using hv
    exact ⟨w, rfl⟩
  | _ => simp [runtimeType, Signature.ty] at hv

theorem fits_array (h : v.fits (.array t)) : v = .null ∨ ∃ addr, v = .array t addr := by
  refine (null_or_exact h (by simp) (by simp) rfl).imp And.left fun h => ?_
  cases v with
  | array e addr =>
    obtain rfl : e = t := by simpa [runtimeType] using h
    exact ⟨addr, rfl⟩
  | _ => simp [runtimeType, Signature.ty] at h

theorem fits_list (h : v.fits (.list t)) : v = .null ∨ ∃ addr, v = .list t addr := by
  refine (null_or_exact h (by simp) (by simp) rfl).imp And.left fun h => ?_
  cases v with
  | list e addr =>
    obtain rfl : e = t := by simpa [runtimeType] using h
    exact ⟨addr, rfl⟩
  | _ => simp [runtimeType, Signature.ty] at h

theorem fits_fn {ps : List Ty} {r : Ty} (h : v.fits (.fn ps r)) :
    v = .null ∨ ∃ addr, v = .delegate ⟨ps, r⟩ addr := by
  refine (null_or_exact h (by simp) (by simp) rfl).imp And.left fun h => ?_
  cases v with
  | delegate sig addr =>
    obtain ⟨ps', r'⟩ := sig
    obtain ⟨rfl, rfl⟩ : ps' = ps ∧ r' = r := by simpa [runtimeType, Signature.ty] using h
    exact ⟨addr, rfl⟩
  | _ => simp [runtimeType] at h

end Value

end ExprTree
