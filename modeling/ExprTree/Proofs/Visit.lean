import ExprTree.Rewrite
import Mathlib.Data.List.Forall2

/-! What a visit gives, from what the visits give that it is made of. -/
namespace ExprTree

/-- The value satisfies `Q`, or there is an error and `fails` holds. -/
def Meets {ε α : Type} (fails : Prop) (Q : α → Prop) : Except ε α → Prop
  | .ok a => Q a
  | .error _ => fails

theorem Meets.of_map {ε α β : Type} {fails : Prop} {Q : β → Prop} {f : α → β} {x : Except ε α}
    (h : Meets fails Q (f <$> x)) : Meets fails (fun a => Q (f a)) x := by
  cases x with
  | error e => exact h
  | ok a => exact h

namespace Visit

variable {σ α β : Type}

/-- Started where `I` holds, the visit answers with a value that satisfies `Q` and leaves `I` true;
it has no error where `fails` is false. -/
def Gives (I : σ × Nat → Prop) (fails : Prop) (v : Visit σ α) (Q : α → Prop) : Prop :=
  ∀ s r t, I s → v.run.run s = (r, t) → Meets fails (fun a => I t ∧ Q a) r

variable {I : σ × Nat → Prop} {fails : Prop} {v : Visit σ α} {Q Q' : α → Prop} {P : β → Prop}
  {f : α → Visit σ β}

theorem run_bind (s : σ × Nat) : (v >>= f).run.run s = match v.run.run s with
    | (.ok a, t) => (f a).run.run t
    | (.error e, t) => (.error e, t) := by
  rw [ExceptT.run_bind, StateT.run_bind]
  rcases v.run.run s with ⟨_ | _, t⟩ <;> rfl

theorem run_build {make : Nat → Build.Result α} {a : σ} {next : Nat} :
    (build make).run.run (a, next) = ((make next).mapError RewriteError.build, a, next + 1) := by
  have hfresh : (fresh : Visit σ Nat).run.run (a, next) = (.ok next, a, next + 1) := rfl
  rw [build, run_bind, hfresh]
  dsimp only
  cases make next <;> rfl

theorem gives_pure {a : α} (h : Q a) : Gives I fails (pure a) Q := by
  rintro s _ _ hs ⟨⟩
  exact ⟨hs, h⟩

theorem Gives.bind (hv : v.Gives I fails Q) (hf : ∀ a, Q a → (f a).Gives I fails P) :
    (v >>= f).Gives I fails P := by
  intro s r t hs hr
  rw [run_bind] at hr
  rcases hrun : v.run.run s with ⟨e | a, u⟩
  · rw [hrun] at hr
    cases hr
    exact hv s _ _ hs hrun
  · rw [hrun] at hr
    have ha := hv s _ _ hs hrun
    exact hf a ha.2 u r t ha.1 hr

theorem Gives.mono (hv : v.Gives I fails Q) (h : ∀ a, Q a → Q' a) : v.Gives I fails Q' := by
  intro s r t hs hr
  have hv := hv s r t hs hr
  cases r with
  | error e => exact hv
  | ok a => exact ⟨hv.1, h a hv.2⟩

theorem Gives.map {g : α → β} (hv : v.Gives I fails fun a => P (g a)) :
    (g <$> v).Gives I fails P := by
  rw [← bind_pure_comp]
  exact hv.bind fun a ha => gives_pure ha

theorem Gives.of_map {g : α → β} (hv : (g <$> v).Gives I fails P) :
    v.Gives I fails fun a => P (g a) := by
  rw [← bind_pure_comp] at hv
  intro s r t hs hr
  have hv := hv s
  rw [run_bind, hr] at hv
  cases r with
  | error e => exact hv _ t hs rfl
  | ok a => exact hv _ t hs rfl

/-- What a visit gives, it gives in a run. -/
theorem Gives.ran (hv : v.Gives I fails Q) :
    v.Gives I fails fun a => Q a ∧ ∃ s t, I s ∧ v.run.run s = (.ok a, t) := by
  intro s r t hs hr
  have h := hv s r t hs hr
  cases r with
  | error e => exact h
  | ok a => exact ⟨h.1, h.2, s, t, hs, hr⟩

theorem gives_build {make : Nat → Build.Result α} (hI : ∀ a next, I (a, next) → I (a, next + 1))
    (h : ∀ a next, I (a, next) → Meets fails Q (make next)) : Gives I fails (build make) Q := by
  rintro ⟨a, next⟩ r t hs hr
  have hm := h a next hs
  rw [run_build] at hr
  cases hmake : make next with
  | error e =>
    rw [hmake] at hm hr
    cases hr
    exact hm
  | ok x =>
    rw [hmake] at hm hr
    cases hr
    exact ⟨hI a next hs, hm⟩

/-! ### Lists -/

section

variable {R : α → α → Prop} {g : α → Visit σ α} {xs : List α}

theorem gives_all (h : ∀ x ∈ xs, (g x).Gives I fails (R x)) :
    Gives I fails (all (xs.map g)) (List.Forall₂ R xs) := by
  induction xs with
  | nil => exact gives_pure .nil
  | cons x xs ih =>
    refine (h x (by simp)).bind fun y hy => ?_
    refine (ih fun z hz => h z (by simp [hz])).bind fun ys hys => ?_
    exact gives_pure (.cons hy hys)

variable [Identified α]

/-- An element that comes back the same stands for its answer, so the relation must hold of it
alone. -/
theorem gives_items (hR : ∀ x y, R x y → same y x → R x x)
    (h : ∀ x ∈ xs, (g x).Gives I fails (R x)) :
    Gives I fails (items xs (xs.map fun x => (x, g x))) (List.Forall₂ R xs) := by
  suffices hs : Gives I fails (sequence (xs.map fun x => (x, g x)))
      fun ys => List.Forall₂ R xs (ys.getD xs) from hs.bind fun ys hys => gives_pure hys
  induction xs with
  | nil => exact gives_pure .nil
  | cons x xs ih =>
    refine (h x (by simp)).bind fun y hy => ?_
    have hxs : ∀ z ∈ xs, (g z).Gives I fails (R z) := fun z hz => h z (by simp [hz])
    split
    · rename_i hsame
      refine (ih hxs).bind fun ys hys => gives_pure ?_
      cases ys with
      | none => exact .cons (hR x y hy hsame) hys
      | some ys => exact .cons (hR x y hy hsame) hys
    · rw [List.map_map]
      exact (gives_all hxs).bind fun ys hys => gives_pure (.cons hy hys)

end

/-! ### Children of one form -/

theorem gives_asParam {v : Visit σ Node} {context : String} {Q : Node → Prop}
    (hv : v.Gives I fails Q) (hQ : ∀ n, Q n → n.kind = .parameter ∨ fails) :
    Gives I fails (asParam context v) fun p => Q (.param p) := by
  refine hv.bind fun n hn => ?_
  by_cases hkind : n.kind = .parameter
  · cases n <;> cases hkind
    exact gives_pure hn
  · have hfails := (hQ n hn).resolve_left hkind
    rintro s r t - hr
    cases n <;> first | exact absurd rfl hkind | (cases hr; exact hfails)

theorem gives_asLambda {v : Visit σ Node} {context : String} {Q : Node → Prop}
    (hv : v.Gives I fails Q) (hQ : ∀ n, Q n → n.kind = .lambda) :
    Gives I fails (asLambda context v) fun f => Q (.lambda f) := by
  refine hv.bind fun n hn => ?_
  have hkind := hQ n hn
  cases n <;> cases hkind
  exact gives_pure hn

theorem gives_asConstruction {v : Visit σ Node} {context : String} {Q : Node → Prop}
    (hv : v.Gives I fails Q) (hQ : ∀ n, Q n → n.kind = .new) :
    Gives I fails (asConstruction context v) fun c => Q (.new c) := by
  refine hv.bind fun n hn => ?_
  have hkind := hQ n hn
  cases n <;> cases hkind
  exact gives_pure hn

end Visit

end ExprTree
