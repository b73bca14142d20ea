import ExprTree.Eval

/-! Runs that know of the state nothing but its store. A call of a lambda, of a delegate or of host
code is one: whoever makes it finds its own frames, handlers and counter as they were. -/
namespace ExprTree

variable {α β : Type}

/-- The same outcome for who was in the state `s`, of which the store alone is changed. -/
def Outcome.onto (s : State) : Outcome α → Outcome α
  | .value a t => .value a { s with store := t.store }
  | .signal x t => .signal x { s with store := t.store }
  | .endless => .endless

/-- The run depends on nothing but the store and changes nothing else. -/
def Eval.Detached (m : Eval α) : Prop := ∀ s u : State, u.store = s.store → m s = (m u).onto s

namespace Outcome

variable {s t u : State} {o : Outcome α}

@[simp] theorem onto_value {a : α} : (value a t).onto s = .value a { s with store := t.store } :=
  rfl

@[simp] theorem onto_signal {x : Signal} :
    (signal x t : Outcome α).onto s = .signal x { s with store := t.store } := rfl

@[simp] theorem onto_endless : (endless : Outcome α).onto s = .endless := rfl

theorem onto_onto : (o.onto u).onto s = o.onto s := by
  cases o <;> rfl

/-- What was in the store does not matter, as it is replaced. -/
theorem onto_withStore {store : Store} : o.onto { s with store } = o.onto s := by
  cases o <;> rfl

end Outcome

namespace Eval

variable {m : Eval α} {f : α → Eval β} {s t u : State} {x : Signal} {a : α}

/-- Before and after the run all but the store is the same. -/
theorem Detached.value (h : m.Detached) (hm : m s = .value a t) :
    ∃ store, t = { s with store } := by
  have hs := h s s rfl
  rw [hm] at hs
  exact ⟨t.store, by simpa using hs⟩

theorem Detached.signal (h : m.Detached) (hm : m s = .signal x t) :
    ∃ store, t = { s with store } := by
  have hs := h s s rfl
  rw [hm] at hs
  exact ⟨t.store, by simpa using hs⟩

theorem Detached.bind (hm : m.Detached) (hf : ∀ a, (f a).Detached) : (m >>= f).Detached := by
  intro s u hu
  change Eval.bind m f s = (Eval.bind m f u).onto s
  unfold Eval.bind
  rw [hm s u hu]
  cases m u with
  | value a t => exact hf a _ t rfl
  | signal x t => rfl
  | endless => rfl

theorem detached_signal {x : Signal} : (Eval.signal x : Eval α).Detached := by
  intro s u hu
  exact congrArg (Outcome.signal x ⟨s.env, s.handling, s.steps, s.limit, ·⟩) hu.symm

theorem detached_endless : (Eval.endless : Eval α).Detached := fun _ _ _ => rfl

theorem detached_withStore {g : Store → α × Store} : (withStore g).Detached := by
  intro s u hu
  simp [withStore, hu]

theorem detached_store_bind {f : Store → Eval β} (hf : ∀ store, (f store).Detached) :
    (store >>= f).Detached := by
  intro s u hu
  change f s.store s = (f u.store u).onto s
  rw [← hu]
  exact hf _ s u hu

theorem detached_fault {e : Fault} : (fault e : Eval α).Detached := by
  cases e with
  | fatal e => exact detached_signal
  | raise c message => exact detached_withStore.bind fun _ => detached_signal
  | endless => exact detached_endless

end Eval

namespace Evaluator

open Eval

variable {ev : Evaluator} {call : Value → List Value → Eval Value}

/-- An isolated run is one from a state of its own, put onto the state of its caller. -/
theorem isolated_eq {captures : Slots} {limit : Option Nat} {m : Eval Value} {s : State} :
    isolated captures limit m s = (m ⟨.ofCaptures captures, [], 0, limit, s.store⟩).onto s := by
  unfold isolated
  cases m ⟨.ofCaptures captures, [], 0, limit, s.store⟩ <;> rfl

theorem isolated_detached {captures : Slots} {limit : Option Nat} {m : Eval Value} :
    (isolated captures limit m).Detached := by
  intro s u hu
  rw [isolated_eq, isolated_eq, hu, Outcome.onto_onto]

theorem callLambda_detached {f : Lambda} {captures : Slots} {limit : Option Nat}
    {args : List Value} : (ev.callLambda f captures limit args).Detached :=
  isolated_detached

/-- Host code brings its store along, so that the one of the state does not matter. -/
theorem runRoutine_onto (hc : ∀ f args, (call f args).Detached) {r : Routine} (s u : State) :
    runRoutine call r s = (runRoutine call r u).onto s := by
  induction r generalizing s u with
  | finish result store => cases result <;> rfl
  | invoke f args store resume ih =>
    simp only [runRoutine]
    rw [hc f args { s with store } { u with store } rfl]
    cases hcall : call f args { u with store } with
    | value v t => exact (ih _ _ _ { t with store := {} }).trans Outcome.onto_withStore
    | signal x t => exact (ih _ _ _ { t with store := {} }).trans Outcome.onto_withStore
    | endless => rfl

theorem onStore_detached (hc : ∀ f args, (call f args).Detached) {run : Store → Routine} :
    (onStore call run).Detached := by
  intro s u hu
  unfold onStore
  rw [hu, runRoutine_onto hc { s with store := {} } { u with store := {} }]
  exact Outcome.onto_withStore

theorem callDelegate_detached {n : Nat} {f : Value} {args : List Value} :
    (callDelegate ev n f args).Detached := by
  induction n generalizing f args with
  | zero =>
    cases f with
    | delegate sig addr =>
      rw [callDelegate]
      split
      · exact detached_signal
      · refine detached_store_bind fun store => ?_
        split
        · exact callLambda_detached
        · exact detached_endless
        · exact detached_endless
    | _ => exact detached_fault
  | succ n ih =>
    cases f with
    | delegate sig addr =>
      rw [callDelegate]
      split
      · exact detached_signal
      · refine detached_store_bind fun store => ?_
        split
        · exact callLambda_detached
        · exact onStore_detached fun _ _ => ih
        · exact detached_endless
    | _ => exact detached_fault

theorem invoke_detached {f : Value} {args : List Value} : (ev.invoke f args).Detached :=
  callDelegate_detached

theorem onHost_detached {run : Store → Routine} : (ev.onHost run).Detached :=
  onStore_detached fun _ _ => callDelegate_detached

end Evaluator

end ExprTree
