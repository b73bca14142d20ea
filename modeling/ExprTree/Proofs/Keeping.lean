import ExprTree.Eval
import ExprTree.Proofs.Names
import ExprTree.Proofs.Operators
import ExprTree.Proofs.Outcome

/-! Contracts that every part of the evaluator keeps when the nodes and the handles that it uses do.
What binds names or catches jumps is left to whoever knows the names. -/
namespace ExprTree

variable {α β : Type}

/-- Whether the error tells that a name means nothing where it is used. -/
def EvalError.isNaming : EvalError → Bool
  | .unboundParameter _ | .unresolvedGoto _ => true
  | _ => false

/-- Any exception may be thrown, and any error but that of a name. -/
structure Ordinary (P : Signal → Prop) : Prop where
  thrown (v : Value) : P (.thrown v)
  fatal {e : EvalError} : e.isNaming = false → P (.fatal e)

namespace Contract

/-- From every state that satisfies the invariant the run keeps the contract, with signals in `P`
and values in `Q`. -/
def Ensures (C : Contract) (P : Signal → Prop) (Q : α → Prop) (m : Eval α) : Prop :=
  ∀ s, C.inv s → C.Holds (fun x _ => P x) (fun a _ => Q a) m s

/-- The same for any value. -/
abbrev Keeps (C : Contract) (P : Signal → Prop) (m : Eval α) : Prop := C.Ensures P (fun _ => True) m

/-- An ordinary step is allowed: to count, to change the store but for its delegates, to throw, and
to fail. -/
structure Plain (C : Contract) (P : Signal → Prop) : Prop extends Ordinary P where
  frame {s t : State} : C.inv s → t.env = s.env → t.handling = s.handling →
    t.store.delegates = s.store.delegates → C.inv t ∧ C.step s t

variable {C : Contract} {P P' : Signal → Prop} {Q : α → Prop} {R : β → Prop}
  {m : Eval α} {f : α → Eval β}

theorem Ensures.mono {Q' : α → Prop} (h : C.Ensures P Q m) (hp : ∀ x, P x → P' x)
    (hq : ∀ a, Q a → Q' a) : C.Ensures P' Q' m :=
  fun s hs => (h s hs).mono (fun x _ => hp x) fun a _ _ _ => hq a

theorem Ensures.bind (hm : C.Ensures P Q m) (hf : ∀ a, Q a → C.Ensures P R (f a)) :
    C.Ensures P R (m >>= f) :=
  fun s hs => (hm s hs).bind fun a t ht _ hq => hf a hq t ht

theorem Keeps.bind (hm : C.Keeps P m) (hf : ∀ a, C.Ensures P R (f a)) : C.Ensures P R (m >>= f) :=
  Ensures.bind hm fun a _ => hf a

/-- Whatever comes out of the first run is handled by the second, which may allow other signals. -/
theorem Keeps.outcome_bind {f : Except Signal α → Eval β} (hm : C.Keeps P m)
    (hv : ∀ a, C.Ensures P' R (f (.ok a))) (hx : ∀ x, P x → C.Ensures P' R (f (.error x))) :
    C.Ensures P' R (m.outcome >>= f) := by
  intro s hs
  refine Holds.bind (hm s hs).outcome ?_
  rintro (x | a) t ht _ hr
  · exact hx x hr t ht
  · exact hv a t ht

theorem ensures_pure {a : α} (h : Q a) : C.Ensures P Q (pure a) := fun _ hs => holds_pure hs h

theorem keeps_pure {a : α} : C.Keeps P (pure a : Eval α) := ensures_pure trivial

theorem keeps_map {g : α → β} (hm : C.Keeps P m) : C.Keeps P (g <$> m) :=
  hm.bind fun _ => keeps_pure

theorem ensures_signal {x : Signal} (h : P x) : C.Ensures P Q (Eval.signal x) :=
  fun _ hs => holds_signal hs h

theorem keeps_get : C.Keeps P Eval.get := fun s hs => ⟨hs, C.refl s, trivial⟩

theorem keeps_store : C.Keeps P Eval.store := fun s hs => ⟨hs, C.refl s, trivial⟩

theorem ensures_endless : C.Ensures P Q Eval.endless := fun _ _ => trivial

theorem keeps_ite {p : Prop} [Decidable p] {m n : Eval α} (hm : C.Ensures P Q m)
    (hn : C.Ensures P Q n) : C.Ensures P Q (if p then m else n) := by
  split
  · exact hm
  · exact hn

namespace Plain

variable (h : C.Plain P)

include h

theorem withStore {g : Store → α × Store} (hg : ∀ s, (g s).2.delegates = s.delegates) :
    C.Keeps P (Eval.withStore g) := by
  intro s hs
  obtain ⟨hi, hst⟩ := h.frame (t := { s with store := (g s.store).2 }) hs rfl rfl (hg _)
  exact holds_withStore hi hst trivial

theorem throw {c : ClassType} {message : String} : C.Ensures P Q (Eval.fault (.raise c message)) :=
  (h.withStore fun _ => rfl).bind fun v => ensures_signal (h.thrown v)

theorem fault {x : Fault} (hx : ∀ e, x = .fatal e → e.isNaming = false) :
    C.Ensures P Q (Eval.fault x) := by
  cases x with
  | fatal e => exact ensures_signal (h.fatal (hx e rfl))
  | raise c m => exact h.throw
  | endless => exact ensures_endless

theorem ofExcept {r : Except Fault α} (hr : Lands Q (·.isNaming = false) r) :
    C.Ensures P Q (Eval.ofExcept r) := by
  cases r with
  | ok a => exact ensures_pure hr
  | error x =>
    refine h.fault ?_
    rintro e rfl
    exact hr

theorem tick : C.Keeps P Eval.tick := by
  intro s hs
  obtain ⟨hi, hst⟩ := h.frame (t := { s with steps := s.steps + 1 }) hs rfl rfl rfl
  exact Eval.ifEnds_tick ⟨hi, hst, trivial⟩ fun n => ⟨hi, hst, h.fatal rfl⟩

end Plain

end Contract

end ExprTree
