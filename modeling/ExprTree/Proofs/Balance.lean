import ExprTree.Host.Scripted
import ExprTree.Proofs.Scoping

/-! However a node is left, the frames and the exceptions being handled are those that there
were. -/
namespace ExprTree

/-- Nothing is promised of names, so nothing is assumed of anything. -/
def Scoping.none : Scoping := ⟨False, False, False, fun _ _ _ => False⟩

variable {host : Host} {n : Nat} {node : Node} {s t : State} {x : Value}

theorem Scoping.none_allows {σ : Symbol → Prop} (x : Signal) : Scoping.none.Allows σ x := by
  rcases x with e | v | ⟨l, v⟩
  · cases e <;> first | trivial | exact fun h => h
  · trivial
  · exact fun h => h.elim

theorem Scoping.none_storeOk (s : Store) : Scoping.none.StoreOk s :=
  fun _ _ _ _ => Or.inl ⟨fun h => h.elim, fun h => h.elim⟩

theorem Scoping.none_assumed {ev : Evaluator} : Scoping.none.Assumed ev where
  host := Host.keeps_of_all Scoping.none_storeOk Scoping.none_allows
  outside h := h.elim
  jumps h := h

theorem eval_ifEnds_balanced : (eval host n node).IfEnds s fun _ t => s.Balanced t := by
  have hk := Scoping.eval_keeps (n := n) fun m => @Scoping.none_assumed (evaluator host m)
  refine Eval.IfEnds.mono (hk (· ∈ node.free) node ⟨fun _ h => h, fun h => h.elim⟩ s
    ⟨fun h => h.elim, Scoping.none_storeOk _⟩) ?_
  rintro r t ⟨_, hb, _⟩
  exact hb

/-- A node without an operand that throws again what is being handled. -/
def rethrow (id : Nat) (ty : Ty) : Node := .unary id .throw Option.none Option.none ty

/-- The result raises this very exception, unless no step was left. -/
def Raises (x : Value) (r : Except Signal Value) : Prop :=
  r = .error (.thrown x) ∨ ∃ limit, r = .error (.fatal (.budgetExceeded limit))

theorem rethrow_run {k id : Nat} {ty : Ty} {hs : List Value} (h : t.handling = x :: hs) :
    ∃ r u, (eval host (k + 1) (rethrow id ty)).run t = some (r, u) ∧ Raises x r := by
  obtain ⟨env, handling, steps, limit, store⟩ := t
  obtain rfl : handling = x :: hs := h
  cases limit with
  | none => exact ⟨.error (.thrown x), _, rfl, Or.inl rfl⟩
  | some l =>
    have hrun : (eval host (k + 1) (rethrow id ty)).run ⟨env, x :: hs, steps, some l, store⟩ =
        if l < steps + 1 then
          some (.error (.fatal (.budgetExceeded l)), ⟨env, x :: hs, steps + 1, some l, store⟩)
        else some (.error (.thrown x), ⟨env, x :: hs, steps + 1, some l, store⟩) := by
      change Eval.run (Eval.bind Eval.tick _) _ = _
      simp only [Eval.run, Eval.bind, Eval.tick]
      by_cases hl : l < steps + 1
      · simp only [hl, if_true]
      · simp only [hl, if_false]
        rfl
    by_cases hl : l < steps + 1
    · exact ⟨_, _, hrun.trans (if_pos hl), Or.inr ⟨l, rfl⟩⟩
    · exact ⟨_, _, hrun.trans (if_neg hl), Or.inl rfl⟩

/-- Whatever a node does and however it is left, the frames bind what they did before and the
exceptions being handled are the same ones. So a rethrow after it raises the exception of the
innermost handler that is running: at any point, and in the body of a handler, where that exception
is the one just caught. -/
theorem eval_balanced (host : Host) (n : Nat) (node : Node) (s : State) :
    ((eval host n node).IfEnds s fun _ t =>
      t.env.depth = s.env.depth ∧ t.env.shape = s.env.shape ∧ t.handling = s.handling ∧
      ∀ x hs, s.handling = x :: hs → ∀ k id ty, ∃ r u,
        (eval host (k + 1) (rethrow id ty)).run t = some (r, u) ∧ Raises x r) ∧
    ∀ x bs k id ty, Eval.IfEnds ((((eval host n node).outcome >>= fun _ =>
        eval host (k + 1) (rethrow id ty)).withBindings bs).withHandling x) s fun r _ =>
          Raises x r := by
  refine ⟨?_, ?_⟩
  · refine Eval.IfEnds.mono eval_ifEnds_balanced ?_
    intro r t hb
    refine ⟨Environment.depth_eq_of_shape hb.shape, hb.shape, hb.handling, ?_⟩
    intro x hs hx k id ty
    exact rethrow_run (hb.handling.trans hx)
  · intro x bs k id ty
    refine Eval.ifEnds_around.mpr
      (Eval.ifEnds_around.mpr (Eval.ifEnds_bind.mpr (Eval.ifEnds_outcome.mpr ?_)))
    refine Eval.IfEnds.mono eval_ifEnds_balanced ?_
    intro _ t hb
    obtain ⟨r, u, hr, hx⟩ := rethrow_run hb.handling
    refine Eval.ifEnds_iff_run.mpr fun r' u' hr' => ?_
    cases hr.symm.trans hr'
    exact hx

/-- A jump leaves the handler of an exception running: the rethrow after it raises that
exception. -/
theorem rethrow_after_jump :
    let x : Value := .object .divideByZero 7
    let l : Label := ⟨0, none, .void⟩
    let host := Scripts.host {}
    ∃ t r u, (eval host 1 (.goto 0 .goto l none .void)).run ⟨.empty, [x, .null], 0, none, {}⟩ =
        some (.error (.jump l .void), t) ∧ t.handling = [x, .null] ∧
      (eval host 1 (rethrow 1 .void)).run t = some (r, u) ∧ Raises x r := by
  intro x l host
  have h := (eval_balanced host 1 (.goto 0 .goto l none .void) ⟨.empty, [x, .null], 0, none, {}⟩).1
  have hrun : (eval host 1 (.goto 0 .goto l none .void)).run ⟨.empty, [x, .null], 0, none, {}⟩ =
      some (.error (.jump l .void), ⟨.empty, [x, .null], 1, none, {}⟩) := rfl
  obtain ⟨_, _, hh, hre⟩ := Eval.ifEnds_iff_run.mp h _ _ hrun
  obtain ⟨r, u, hr, hx⟩ := hre x [.null] rfl 0 1 .void
  exact ⟨_, r, u, hrun, hh, hr, hx⟩

end ExprTree
