import ExprTree.Proofs.Environment
import Mathlib.Logic.Function.Basic

/-! Environments under other names. An injective map of the ids of parameters commutes with all that
is done to an environment. -/
namespace ExprTree

variable {σ : Nat → Nat} {i : Nat} {v : Value}

namespace Slots

variable {b c bs : Slots}

def renamed (σ : Nat → Nat) (b : Slots) : Slots := b.map fun (i, v) => (σ i, v)

@[simp] theorem renamed_nil : renamed σ [] = [] := rfl

@[simp] theorem renamed_cons : renamed σ ((i, v) :: b) = (σ i, v) :: renamed σ b := rfl

section

variable (hσ : σ.Injective)

include hσ

@[simp] theorem get?_renamed : (b.renamed σ).get? (σ i) = b.get? i := by
  induction b with
  | nil => rfl
  | cons p b ih =>
    obtain ⟨k, w⟩ := p
    simp only [renamed_cons, get?, hσ.eq_iff]
    rw [ih]

@[simp] theorem set_renamed : (b.renamed σ).set (σ i) v = (b.set i v).renamed σ := by
  induction b with
  | nil => rfl
  | cons p b ih =>
    obtain ⟨k, w⟩ := p
    simp only [renamed_cons, set, hσ.eq_iff]
    split
    · rfl
    · rw [ih, renamed_cons]

theorem ofBindings_renamed : ofBindings (bs.renamed σ) = (ofBindings bs).renamed σ := by
  suffices ∀ f : Slots, (bs.renamed σ).foldl (fun f (i, v) => f.set i v) (f.renamed σ) =
      (bs.foldl (fun f (i, v) => f.set i v) f).renamed σ from this []
  induction bs with
  | nil => exact fun _ => rfl
  | cons p bs ih =>
    intro f
    obtain ⟨k, w⟩ := p
    rw [renamed_cons, List.foldl_cons, List.foldl_cons, ← ih, ← set_renamed hσ]

theorem overlay_renamed : (b.renamed σ).overlay (c.renamed σ) = (b.overlay c).renamed σ := by
  unfold overlay
  simp only [renamed, List.map_append, List.filter_map]
  congr 3
  funext ⟨k, w⟩
  exact congrArg Option.isNone (get?_renamed hσ)

end

end Slots

namespace Environment

variable {e : Environment} {bs : Slots}

def renamed (σ : Nat → Nat) (e : Environment) : Environment :=
  ⟨e.inner.map (·.renamed σ), e.bottom.renamed σ⟩

theorem pop_renamed : (e.renamed σ).pop = e.pop.renamed σ := by
  simp only [renamed, pop, List.map_tail]

section

variable (hσ : σ.Injective)

include hσ

@[simp] theorem lookup_renamed : (e.renamed σ).lookup (σ i) = e.lookup i := by
  simp only [lookup, renamed, List.findSome?_map, Function.comp_def, Slots.get?_renamed hσ]

theorem push_defineAll_renamed :
    (e.renamed σ).push.defineAll (bs.renamed σ) = (e.push.defineAll bs).renamed σ := by
  rw [push_defineAll, push_defineAll, Slots.ofBindings_renamed hσ]
  rfl

theorem assignIn_renamed {fs : List Slots} :
    assignIn (σ i) v (fs.map (·.renamed σ)) = (assignIn i v fs).map (·.map (·.renamed σ)) := by
  induction fs with
  | nil => rfl
  | cons f fs ih =>
    rw [List.map_cons, assignIn, assignIn, Slots.get?_renamed hσ, ih]
    split
    · rw [Slots.set_renamed hσ]
      rfl
    · rw [Option.map_map, Option.map_map]
      rfl

theorem assign?_renamed : (e.renamed σ).assign? (σ i) v = (e.assign? i v).map (·.renamed σ) := by
  simp only [assign?, renamed, assignIn_renamed hσ, Slots.get?_renamed hσ, Slots.set_renamed hσ]
  cases assignIn i v e.inner with
  | some fs => rfl
  | none =>
    dsimp only [Option.map]
    split <;> rfl

theorem capture_renamed : (e.renamed σ).capture = e.capture.renamed σ := by
  unfold capture renamed
  induction e.inner with
  | nil => rfl
  | cons f fs ih =>
    dsimp only at ih ⊢
    rw [List.map_cons, List.foldr_cons, List.foldr_cons, ih, Slots.overlay_renamed hσ]

theorem ofCaptures_renamed : ofCaptures (bs.renamed σ) = (ofCaptures bs).renamed σ := by
  rw [ofCaptures_eq, ofCaptures_eq, Slots.ofBindings_renamed hσ]
  rfl

end

end Environment

end ExprTree
