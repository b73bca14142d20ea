import ExprTree.Proofs.Handles

/-! What host code is trusted with: it keeps an invariant of the store and ends in certain signals
only, as long as the delegates that it invokes do. -/
namespace ExprTree

variable {I : Store → Prop} {P : Signal → Prop}

/-- The routine hands the store over with the invariant and does not signal outside `P` by
itself. -/
def Routine.Keeps (I : Store → Prop) (P : Signal → Prop) : Routine → Prop
  | .finish result store => I store ∧ ∀ x, result = .error x → P x
  | .invoke _ _ store resume => I store ∧
    ∀ r s, I s → (∀ x, r = .error x → P x) → (resume r s).Keeps I P

/-- From every store with the invariant it does. -/
def Routine.Trusted (I : Store → Prop) (P : Signal → Prop) (run : Store → Routine) : Prop :=
  ∀ s, I s → (run s).Keeps I P

/-- All code of the host is trusted. -/
def Host.Keeps (h : Host) (I : Store → Prop) (P : Signal → Prop) : Prop :=
  h.Each (Routine.Trusted I P)

/-- Every call of the closure keeps the invariant of the store and signals within `P`. -/
def Evaluator.Vouches (ev : Evaluator) (I : Store → Prop) (P : Signal → Prop) (f : Lambda)
    (captures : Slots) (limit : Option Nat) : Prop :=
  ∀ args s, I s.store → (ev.callLambda f captures limit args).IfEnds s fun r t =>
    I t.store ∧ ∀ x, r = .error x → P x

namespace Routine

theorem keeps_of_all {r : Routine} (hI : ∀ s, I s) (hP : ∀ x, P x) : r.Keeps I P := by
  induction r with
  | finish result store => exact ⟨hI _, fun x _ => hP x⟩
  | invoke f args store resume ih => exact ⟨hI _, fun r s _ _ => ih r s⟩

end Routine

namespace Host

variable {h : Host}

theorem keeps_of_all (hI : ∀ s, I s) (hP : ∀ x, P x) : h.Keeps I P :=
  fun _ _ _ _ => Routine.keeps_of_all hI hP

theorem scripts_nil_keeps : (Scripts.host {}).Keeps I P := scripts_nil fun _ hs => ⟨hs, nofun⟩

/-- What is built in is trusted with what hangs on delegates only. -/
theorem Keeps.routine (hh : h.Keeps I P)
    (hI : ∀ s t : Store, s.Edited t → t.delegates = s.delegates → I s → I t) (hP : Ordinary P)
    (c : HandleCall) : Routine.Trusted I P (c.routine h) := by
  refine Each.routine hh (fun _ hb => ?_) c
  cases hb with
  | finish hg he hr => exact fun s hs => ⟨hI s _ (he s) (hg.delegates s) hs, hr P hP _⟩

end Host

end ExprTree
