import ExprTree.Proofs.OpaqueHost
import ExprTree.Proofs.Trace

/-! Stores, states and host code that differ in nothing but the limits of closures. -/
namespace ExprTree

/-- How the limits of one run may differ from those of another: a limit that is `tight` there may be
greater here, or there may be none. The delegates below `base` are the same in both. -/
structure Loosening where
  rel : Option Nat → Option Nat → Prop
  tight : Nat → Prop
  base : Nat
  looser {l l' : Option Nat} :
    rel l l' → l = l' ∨ ∃ n, tight n ∧ l = some n ∧ ∀ m, l' = some m → n ≤ m

/-- All limits are the same. -/
def Loosening.exact : Loosening := ⟨Eq, fun _ => False, 0, Or.inl⟩

inductive DelegateBody.Like (Λ : Loosening) : DelegateBody → DelegateBody → Prop where
  | closure (f : Lambda) (captures : Slots) {l l' : Option Nat} (h : Λ.rel l l') :
    DelegateBody.Like Λ (.closure f captures l) (.closure f captures l')
  | host (id : Nat) : DelegateBody.Like Λ (.host id) (.host id)

structure Store.Like (Λ : Loosening) (s t : Store) : Prop
    extends s.Paired (DelegateBody.Like Λ) t where
  base : Λ.base ≤ s.delegates.size
  old (i : Nat) : i < Λ.base → t.delegates[i]? = s.delegates[i]?

/-- Alike but for the store. -/
structure State.Near (Λ : Loosening) (s t : State) : Prop where
  env : t.env = s.env
  handling : t.handling = s.handling
  steps : t.steps = s.steps
  limit : Λ.rel s.limit t.limit

structure State.Like (Λ : Loosening) (s t : State) : Prop extends State.Near Λ s t where
  store : s.store.Like Λ t.store

inductive Outcome.Like (Λ : Loosening) {α : Type} : Outcome α → Outcome α → Prop where
  | value (a : α) {s t : State} (h : s.Like Λ t) : Outcome.Like Λ (.value a s) (.value a t)
  | signal (x : Signal) {s t : State} (h : s.Like Λ t) : Outcome.Like Λ (.signal x s) (.signal x t)

/-- No code of the host sees the limits of closures. -/
def Host.Blind (h : Host) (Λ : Loosening) : Prop :=
  h.Each (Routine.Opaque (Store.Like Λ) fun _ => True)

variable {Λ : Loosening}

namespace Store.Like

variable {s t : Store}

theorem change : Indistinct (Store.Like Λ) := by
  intro α g s t h hg
  obtain ⟨hv, hp⟩ := h.toPaired.change hg
  refine ⟨hv, hp, ?_, ?_⟩
  · rw [hg.delegates s]
    exact h.base
  · rw [hg.delegates s, hg.delegates t]
    exact h.old

/-- A new delegate has the same address. -/
theorem newDelegate {b b' : DelegateBody} (h : s.Like Λ t) (sig : Signature) (hb : b.Like Λ b') :
    (t.newDelegate sig b').1 = (s.newDelegate sig b).1 ∧
      (s.newDelegate sig b).2.Like Λ (t.newDelegate sig b').2 := by
  obtain ⟨hv, hp⟩ := h.toPaired.newDelegate sig hb
  refine ⟨hv, hp, ?_, fun i hi => ?_⟩
  · exact Nat.le_trans h.base (by simp [Store.newDelegate])
  · have hne : i ≠ s.delegates.size := Nat.ne_of_lt (Nat.lt_of_lt_of_le hi h.base)
    simp only [Store.newDelegate, Array.getElem?_push, h.size, hne, if_false]
    exact h.old i hi

end Store.Like

/-- What is built in sees no delegates either. -/
theorem Host.Blind.routine {h : Host} (hh : h.Blind Λ) (c : HandleCall) :
    Routine.Opaque (Store.Like Λ) (fun _ => True) (c.routine h) :=
  Each.routine hh (fun _ => Routine.opaque_builtIn Store.Like.change) c

end ExprTree
