import ExprTree.Proofs.Handles
import ExprTree.Proofs.Log
import ExprTree.Proofs.PlanNodes
import ExprTree.Proofs.Reuse

/-! Fatal errors cannot be caught. Where there is no finalizer, nothing comes between the evaluation
that raises one and the end of the run. -/
namespace ExprTree

variable {α β : Type}

/-- The evaluation of a node raised a fatal error. -/
def Entry.raised (e : EvalError) : Entry := .ended (.error (.fatal e))

/-- Neither the node nor what is evaluated below it, in lambdas also, is finalized. -/
def Node.NoFinally (n : Node) : Prop := n.All fun m => m.finalizer? = none

/-- No closure runs into a finalizer. -/
def Store.NoFinally (s : Store) : Prop :=
  ∀ f captures l, .closure f captures l ∈ s.delegates → f.body.NoFinally

theorem Store.NoFinally.of_delegates {s t : Store} (h : s.NoFinally)
    (hd : t.delegates = s.delegates) : t.NoFinally :=
  fun f captures l hf => h f captures l (hd ▸ hf)

theorem Store.NoFinally.newDelegate {s : Store} (h : s.NoFinally) {f : Lambda} {captures : Slots}
    {l : Option Nat} (hf : f.body.NoFinally) :
    (s.newDelegate f.signature (.closure f captures l)).2.NoFinally := by
  intro g captures' l' hg
  rcases Array.mem_push.mp hg with hg | hg
  · exact h g captures' l' hg
  · cases hg
    exact hf

/-- Host code hands a fatal error that it is given on to its caller. -/
def Routine.PassesOn : Routine → Prop
  | .finish _ _ => True
  | .invoke _ _ _ resume => (∀ e s, resume (.error (.fatal e)) s = .finish (.error (.fatal e)) s) ∧
    ∀ r s, (resume r s).PassesOn

/-- So does all code of the host. -/
def Host.PassesOn (h : Host) : Prop := h.Each fun run => ∀ s, (run s).PassesOn

/-- What is built in finishes at once. -/
theorem Host.PassesOn.routine {h : Host} (hh : h.PassesOn) (c : HandleCall) (s : Store) :
    (c.routine h s).PassesOn := by
  refine Each.routine hh (fun _ hb => ?_) c s
  cases hb
  exact fun _ => trivial

/-- Either no fatal error was raised, or the run ends in the first one and since then it was only
raised again, by the evaluations around the one that raised it. No closure with a finalizer has been
stored. -/
inductive Uncaught : Outcome α → Log → Prop
  | quiet {o : Outcome α} {l : Log} (hl : ∀ e, .raised e ∉ l) (hs : o.Leaves fun t =>
    t.store.NoFinally) :
    Uncaught o l
  | raised {l tail : Log} {e : EvalError} {t : State} (hl : ∀ e, .raised e ∉ l)
    (ht : ∀ x ∈ tail, x = .raised e) (hs : t.store.NoFinally) :
    Uncaught (.signal (.fatal e) t) (l ++ tail)

namespace Uncaught

variable {o : Outcome α} {l l' : Log} {s t : State} {x : Entry}

theorem silent (hs : o.Leaves fun t => t.store.NoFinally) : Uncaught o [] := .quiet nofun hs

theorem after (hl : ∀ e, .raised e ∉ l) (h : Uncaught o l') : Uncaught o (l ++ l') := by
  cases h with
  | quiet hl' hs => exact .quiet (by simp [hl, hl']) hs
  | raised hl' ht hs =>
    rw [← List.append_assoc]
    exact .raised (by simp [hl, hl']) ht hs

theorem cons (hx : ∀ e, x ≠ .raised e) (h : Uncaught o l) : Uncaught o (x :: l) :=
  .after (l := [x]) (fun e => by simpa using (hx e).symm) h

/-- Nothing goes on after a fatal error, so neither do two runs in a row. -/
theorem andThen {g : Except Signal α → State → Outcome β} {k : Except Signal α → State → Log}
    (h : Uncaught o l)
    (hg : ∀ r t, (∀ e, r ≠ .error (.fatal e)) → t.store.NoFinally → Uncaught (g r t) (k r t))
    (hf : ∀ e t, (∃ u, u.store = t.store ∧ g (.error (.fatal e)) t = .signal (.fatal e) u) ∧
      k (.error (.fatal e)) t = []) : Uncaught (o.andThen g) (l ++ o.after k) := by
  cases h with
  | quiet hl hs =>
    refine .after hl ?_
    cases o with
    | value a t => exact hg _ t (by rintro _ ⟨⟩) hs
    | endless => exact .silent trivial
    | signal x t =>
      cases x with
      | fatal e =>
        obtain ⟨⟨u, hu, hgu⟩, hk⟩ := hf e t
        have hs : u.store.NoFinally := hu ▸ hs
        simp only [Outcome.andThen, Outcome.after, hgu, hk]
        exact .silent hs
      | thrown v => exact hg _ t (by rintro _ ⟨⟩) hs
      | jump l v => exact hg _ t (by rintro _ ⟨⟩) hs
  | @raised l tail e t hl ht hs =>
    obtain ⟨⟨u, hu, hgu⟩, hk⟩ := hf e t
    have hs : u.store.NoFinally := hu ▸ hs
    simp only [Outcome.andThen, Outcome.after, hgu, hk, List.append_nil]
    exact .raised hl ht hs

/-- The same where nothing is logged of what comes second. -/
theorem through {g : Except Signal α → State → Outcome β} (h : Uncaught o l)
    (hg : ∀ r t, (g r t).Leaves fun u => u.store = t.store)
    (hf : ∀ e t, ∃ u, g (.error (.fatal e)) t = .signal (.fatal e) u) :
    Uncaught (o.andThen g) l := by
  have hk := h.andThen (g := g) (k := fun _ _ => [])
    (fun r t _ ht => .silent ((hg r t).mono fun u hu => hu ▸ ht)) fun e t => by
      obtain ⟨u, hu⟩ := hf e t
      have hs := hg (.error (.fatal e)) t
      rw [hu] at hs
      exact ⟨⟨u, hs, hu⟩, rfl⟩
  rwa [Outcome.after_nil, List.append_nil] at hk

theorem onto (h : Uncaught o l) : Uncaught (o.onto s) l := by
  cases h with
  | quiet hl hs => exact .quiet hl (.onto hs)
  | raised hl ht hs => exact .raised hl ht hs

/-- The end of an evaluation raises the error that it ends in. -/
theorem ended {o : Outcome Value} (h : Uncaught o l) :
    Uncaught o (l ++ o.after fun r _ => [.ended r]) := by
  cases h with
  | quiet hl hs =>
    have hquiet (r : Except Signal Value) (hr : ∀ e, r ≠ .error (.fatal e)) (e : EvalError) :
        .raised e ∉ l ++ [.ended r] := by
      intro hmem
      rcases List.mem_append.mp hmem with hmem | hmem
      · exact hl e hmem
      · cases List.mem_singleton.mp hmem
        exact hr e rfl
    cases o with
    | value a t => exact .quiet (hquiet _ (by rintro e ⟨⟩)) hs
    | endless => exact .quiet (by simpa [Outcome.after] using hl) trivial
    | signal x t =>
      cases x with
      | fatal e => exact .raised hl (fun x hx => List.mem_singleton.mp hx) hs
      | thrown v => exact .quiet (hquiet _ (by rintro e ⟨⟩)) hs
      | jump l v => exact .quiet (hquiet _ (by rintro e ⟨⟩)) hs
  | raised hl ht hs =>
    rw [List.append_assoc]
    refine .raised hl (fun x hx => ?_) hs
    rcases List.mem_append.mp hx with hx | hx
    · exact ht x hx
    · exact List.mem_singleton.mp hx

/-- Whichever entry raises an error, it is the one that the run ends in. -/
theorem of_raised {pre post : Log} {e : EvalError} (h : Uncaught o (pre ++ .raised e :: post)) :
    (∃ t, o = .signal (.fatal e) t) ∧ ∀ x ∈ post, x = .raised e := by
  generalize hl : pre ++ .raised e :: post = l at h
  cases h with
  | quiet hq hs => exact absurd (by simp [← hl]) (hq e)
  | @raised l tail e' t hq ht hs =>
    have htail : ∃ pre', tail = pre' ++ .raised e :: post := by
      rcases List.append_eq_append_iff.mp hl with ⟨c, hc, hp⟩ | ⟨c, hc, hp⟩
      · cases c with
        | nil => exact ⟨[], hp.symm⟩
        | cons y c =>
          obtain ⟨rfl, -⟩ := List.cons_eq_cons.mp hp
          exact absurd (by simp [hc]) (hq e)
      · exact ⟨c, hp⟩
    obtain ⟨pre', rfl⟩ := htail
    have he : Entry.raised e = .raised e' := ht _ (by simp)
    cases he
    exact ⟨⟨t, rfl⟩, fun x hx => ht x (by simp [hx])⟩

end Uncaught

/-! ### Every run -/

/-- From no closure with a finalizer, the evaluation of a node without one catches no fatal
error. -/
def Recorder.Uncatching (R : Recorder Entry) : Prop :=
  ∀ n s, n.NoFinally → s.store.NoFinally → Uncaught (R.eval n s) (R.trace n s)

variable {R : Recorder Entry} {s : State}

section

variable (hR : R.Uncatching)

include hR

theorem sequence_uncaught {all es : List Node} {k : Nat} {last : Value}
    (ha : ∀ n ∈ all, n.NoFinally) (he : ∀ n ∈ es, n.NoFinally) (hs : s.store.NoFinally) :
    Uncaught (R.runSequence all k es last s) (R.sequence all k es s) := by
  induction k generalizing es last s with
  | zero =>
    cases es with
    | nil => exact .silent hs
    | cons e es => exact .silent trivial
  | succ k ih =>
    cases es with
    | nil => exact .silent hs
    | cons e es =>
      rw [Evaluator.runSequence_go]
      refine (hR e s (he e (by simp)) hs).andThen (fun r t hr ht => ?_) fun e t =>
        ⟨⟨t, rfl, rfl⟩, rfl⟩
      rcases r with (e | x | ⟨l, v⟩) | v
      · exact absurd rfl (hr e)
      · exact .silent ht
      · dsimp only [Recorder.rest?]
        cases hrest : Evaluator.afterLabel? l all with
        | none => exact .silent ht
        | some rest => exact ih (fun n hn => ha n (Evaluator.mem_of_afterLabel? hrest n hn)) ht
      · exact ih (fun n hn => he n (by simp [hn])) ht

theorem loop_uncaught {body : Node} {b c : Option Label} {k : Nat} (hb : body.NoFinally)
    (hs : s.store.NoFinally) : Uncaught (R.runLoop body b c k s) (R.loop body b c k s) := by
  induction k generalizing s with
  | zero => exact .silent trivial
  | succ k ih =>
    rw [Evaluator.runLoop_go]
    refine (hR body s hb hs).andThen (fun r t hr ht => ?_) fun e t => ⟨⟨t, rfl, rfl⟩, rfl⟩
    rcases r with (e | x | ⟨l, v⟩) | v
    · exact absurd rfl (hr e)
    · exact .silent ht
    · dsimp only [Recorder.again]
      cases hbl : b == some l with
      | true => exact .silent ht
      | false =>
        cases hcl : c == some l with
        | true => exact ih ht
        | false => exact .silent ht
    · exact ih ht

theorem lambda_uncaught {f : Lambda} {args : List Value} (hf : f.body.NoFinally)
    (hs : s.store.NoFinally) : Uncaught (R.runLambda f args s) (R.lambda f args s) := by
  rw [Evaluator.runLambda_eq]
  unfold Recorder.lambda
  split
  · exact .silent hs
  · refine (hR f.body (s.entered f args) hf hs).through (fun r t => ?_) fun e t => ⟨_, rfl⟩
    rcases r with (e | x | ⟨l, v⟩) | v <;> rfl

theorem call_uncaught {f : Lambda} {captures : Slots} {l : Option Nat} {args : List Value}
    (hf : f.body.NoFinally) (hs : s.store.NoFinally) :
    Uncaught (R.callLambda f captures l args s) (R.lambda f args (s.isolated captures l)) := by
  unfold Evaluator.callLambda
  rw [Evaluator.isolated_eq]
  exact (lambda_uncaught hR (s := s.isolated captures l) hf hs).onto

end

theorem routine_uncaught {call : Value → List Value → Eval Value}
    {log : Value → List Value → State → Log}
    (hc : ∀ f args s, s.store.NoFinally → Uncaught (call f args s) (log f args s)) {r : Routine}
    (hp : r.PassesOn) (hk : r.Keeps Store.NoFinally fun _ => True) :
    Uncaught (Evaluator.runRoutine call r s) (Recorder.routine call log r s) := by
  induction r generalizing s with
  | finish result store => cases result <;> exact .silent hk.1
  | invoke f args store resume ih =>
    rw [Evaluator.runRoutine_invoke]
    refine (hc f args { s with store } hk.1).andThen (fun r t _ ht => ?_) fun e t => ?_
    · exact ih r t.store (hp.2 r t.store) (hk.2 r t.store ht fun _ _ => trivial)
    · rw [hp.1 e t.store]
      exact ⟨⟨_, rfl, rfl⟩, rfl⟩

section

variable (hp : R.host.PassesOn) (hk : R.host.Keeps Store.NoFinally fun _ => True)
  (hR : R.Uncatching)

include hR

theorem dispatch_uncaught {k : Nat} {f : Value} {args : List Value} (hs : s.store.NoFinally)
    (hh : ∀ id, Uncaught (R.hostDelegate id args k s) (R.hostTrace id args k s)) :
    Uncaught (R.callDelegate k f args s) (R.delegate k f args s) := by
  by_cases hf : ∃ sig addr, f = .delegate sig addr
  · obtain ⟨sig, addr, rfl⟩ := hf
    rw [Evaluator.callDelegate_eq, Recorder.delegate_eq]
    refine .cons (x := .call _ _) nofun ?_
    split
    · exact .silent hs
    · rcases hb : s.store.delegates[addr]? with _ | (⟨g, captures, l⟩ | id)
      · exact .silent trivial
      · exact call_uncaught hR (hs g captures l (Array.mem_of_getElem? hb)) hs
      · exact hh id
  · simp only [not_exists] at hf
    obtain ⟨e, -, hfault⟩ := Evaluator.callDelegate_fault hf
    rw [hfault, Recorder.delegate_fault hf]
    refine .cons (x := .call f args) nofun ?_
    cases e with
    | fatal e => exact .silent hs
    | raise c m => exact .silent hs
    | endless => exact .silent trivial

include hp hk

theorem delegate_uncaught (k : Nat) (f : Value) (args : List Value) (s : State)
    (hs : s.store.NoFinally) : Uncaught (R.callDelegate k f args s) (R.delegate k f args s) := by
  induction k generalizing f args s with
  | zero => exact dispatch_uncaught hR hs fun _ => .silent trivial
  | succ k ih =>
    refine dispatch_uncaught hR hs fun id => ?_
    exact routine_uncaught ih (hp _ (.delegate id args) s.store)
      (hk _ (.delegate id args) s.store hs)

theorem action_uncaught {a : Action} (ha : a.Among Node.NoFinally) (hs : s.store.NoFinally) :
    Uncaught (a.run R.toEvaluator s) (a.trace R s) := by
  cases a with
  | eval n => exact hR n s ha hs
  | sequence body => exact sequence_uncaught hR ha ha hs
  | loop body b c => exact loop_uncaught hR ha hs
  | use c =>
    have hkeeps : (c.routine R.host s.store).Keeps Store.NoFinally fun _ => True :=
      c.trusted (fun _ hd hs => hs.of_delegates hd) hk s.store hs
    have hpasses : (c.routine R.host s.store).PassesOn := hp.routine c s.store
    exact .cons nofun (routine_uncaught (delegate_uncaught hp hk hR R.depth) hpasses hkeeps)
  | invoke f args => exact delegate_uncaught hp hk hR R.depth f args s hs
  | convert f v => exact call_uncaught hR ha hs
  | assign p v =>
    refine .cons nofun (.silent ?_)
    change (Eval.bind (Evaluator.assign p v) _ s).Leaves _
    unfold Eval.bind Evaluator.assign
    cases s.env.assign? p.id v with
    | none => exact hs
    | some env => exact hs
  | element addr position v => exact .cons nofun (.silent hs)
  | newArray elem items => exact .silent hs
  | newException c message => exact .silent hs
  | closure f => exact .silent (hs.newDelegate ha)

/-- A plan with nothing to evaluate finally goes on after values, exceptions and jumps only. -/
theorem plan_uncaught {p : Plan α} (ha : p.Among Node.NoFinally fun _ => False)
    (hs : s.store.NoFinally) : Uncaught (p.run R.toEvaluator s) (p.trace R s) := by
  induction p generalizing s with
  | pure a => exact .silent hs
  | signal x => exact .silent hs
  | endless => exact .silent trivial
  | look next ih => exact ih s.view (ha s.view) hs
  | act a next ih =>
    rw [Plan.run_act]
    refine (action_uncaught hp hk hR ha.1 hs).andThen (fun r t _ ht => ?_) fun e t =>
      ⟨⟨t, rfl, rfl⟩, rfl⟩
    cases r with
    | ok v => exact ih v (ha.2 v) ht
    | error x => exact .silent ht
  | within f p next ihp ih =>
    rw [Plan.run_within]
    refine (ihp ha.1 (by simpa using hs)).andThen (fun r t _ ht => ?_) fun e t =>
      ⟨⟨f.leave t, by simp, rfl⟩, rfl⟩
    have ht : (f.leave t).store.NoFinally := by simpa using ht
    cases r with
    | ok v => exact ih v (ha.2 v) ht
    | error x => exact .silent ht
  | attempt p next ihp ih =>
    rw [Plan.run_attempt]
    refine (ihp ha.1 hs).andThen (fun r t hr ht => ?_) fun e t => ⟨⟨t, rfl, rfl⟩, rfl⟩
    rcases r with (e | x | ⟨l, v⟩) | v
    · exact absurd rfl (hr e)
    · exact ih _ (ha.2 _) ht
    · exact ih _ (ha.2 _) ht
    · exact ih _ (ha.2 _) ht
  | final p n next ihp ih => exact ha.2.1.elim

end

theorem eval_uncaught {host : Host} (hp : host.PassesOn)
    (hk : host.Keeps Store.NoFinally fun _ => True) (n : Nat) : (logger host n).Uncatching := by
  induction n with
  | zero => exact fun node s _ _ => .silent trivial
  | succ n ih =>
    intro node s hn hs
    refine .cons nofun (Uncaught.ended ?_)
    change Uncaught (eval host (n + 1) node s) _
    rw [eval_succ]
    cases s.spent? with
    | some limit => exact .silent hs
    | none =>
      have hplan : node.plan.Among Node.NoFinally fun _ => False :=
        node.plan_among (fun c hc => hn.child hc) (fun m hm c hc => hm.child hc) (by simp [hn.here])
      exact plan_uncaught (R := logger host n) (s := s.ticked) hp hk ih hplan hs

/-- Let nothing that a lambda evaluates have a finalizer, nor the closures that there are or that
host code adds, and let host code hand on the fatal errors that it is given. Whatever evaluation of
a node then raises a fatal error, in the interpreter or in a closure called at any depth, the run
ends in this error, and after it was raised nothing is started, called or assigned: all that the log
still has is the ends of the evaluations around, in the same error. -/
theorem fatal_errors_uncaught (host : Host) (hp : host.PassesOn)
    (hk : host.Keeps Store.NoFinally fun _ => True) (f : Lambda) (hf : (Node.lambda f).NoFinally)
    (n : Nat) (args : List Value) (s : State) (hs : s.store.NoFinally) (pre post : Log)
    (e : EvalError)
    (hlog : (logger host n).lambda f args s = pre ++ .raised e :: post) :
    (∃ t, ((evaluator host n).runLambda f args).run s = some (.error (.fatal e), t) ∧
      ((evaluator host n).interpret f args).run s = some (.ok (.error e), t)) ∧
    ∀ x ∈ post, x = .raised e := by
  have hbody : f.body.NoFinally := hf.child (by simp [Node.children])
  have hu : Uncaught ((evaluator host n).runLambda f args s) ((logger host n).lambda f args s) :=
    lambda_uncaught (eval_uncaught hp hk n) hbody hs
  rw [hlog] at hu
  obtain ⟨⟨t, ht⟩, hpost⟩ := hu.of_raised
  have hrun : ((evaluator host n).runLambda f args).run s = some (.error (.fatal e), t) := by
    simp [Eval.run, ht]
  have hcollapsed : (evaluator host n).interpret f args s = _ := Eval.outcome_bind_eq
  rw [ht] at hcollapsed
  refine ⟨⟨t, hrun, ?_⟩, hpost⟩
  unfold Eval.run
  rw [hcollapsed]
  rfl

/-- A closure reads what is bound nowhere. Neither the handler nor the fault around its call is
evaluated. -/
theorem unbound_in_closure :
    let host := Scripts.host {}
    let x : Param := ⟨0, none, .bool⟩
    let g : Lambda := .mk 0 none (.param x) [] .bool
    let call : Node := .invoke 1 (.lambda g) [] .bool
    let clause : CatchClause := .mk 2 .object none none (.default 3 .bool)
    let f : Lambda := .mk 6 none (.guarded 4 call [clause] none (some (.default 5 .void))) [] .bool
    let d : Value := .delegate g.signature 0
    let e : EvalError := .unboundParameter x.text
    let pre : Log := [.start f.body, .start call, .start (.lambda g), .ended (.ok d), .call d [],
      .start (.param x)]
    let s : State := .start none {}
    (logger host 4).lambda f [] s = pre ++ .raised e :: [.raised e, .raised e] ∧
      ∃ t, ((evaluator host 4).runLambda f []).run s = some (.error (.fatal e), t) := by
  intro host x g call clause f d e pre s
  let store : Store := { delegates := #[.closure g [] none] }
  let u : State := { s.entered f [] with steps := 3, store }
  let R := logger host 2
  have hinvoke : R.callDelegate 2 d [] u = .signal (.fatal e) u := by
    rw [Evaluator.callDelegate_eq]
    rfl
  have hcall : eval host 3 call (s.entered f []).ticked = .signal (.fatal e) u := by
    rw [eval_succ]
    change (Plan.act (.invoke d []) .pure).run R.toEvaluator u = _
    rw [Plan.run_act]
    change (R.callDelegate 2 d [] u).andThen _ = _
    rw [hinvoke]
    rfl
  have hbody : eval host 4 f.body (s.entered f []) = .signal (.fatal e) u := by
    rw [eval_succ]
    change (Plan.attempt (.eval call) _).run (evaluator host 3) _ = _
    rw [Plan.run_attempt, Plan.run_eval]
    change (eval host 3 call (s.entered f []).ticked).andThen _ = _
    rw [hcall]
    rfl
  have hcallLog : log host 3 call (s.entered f []).ticked = pre.tail ++ [.raised e, .raised e] := by
    change .start call :: (([.start (.lambda g), .ended (.ok d)] ++ (R.delegate 2 d [] u ++
      (R.callDelegate 2 d [] u).after _)) ++ (eval host 3 call (s.entered f []).ticked).after _) = _
    rw [hinvoke, hcall]
    rfl
  have hlog : (logger host 4).lambda f [] s = pre ++ .raised e :: [.raised e, .raised e] := by
    change .start f.body :: (((Plan.eval call).trace (logger host 3) (s.entered f []).ticked ++
      ((Plan.eval call).run (evaluator host 3) (s.entered f []).ticked).after _) ++
      (eval host 4 f.body (s.entered f [])).after _) = _
    rw [hbody, Plan.run_eval, Plan.trace_eval]
    change .start f.body :: ((log host 3 call (s.entered f []).ticked ++
      (eval host 3 call (s.entered f []).ticked).after _) ++ _) = _
    rw [hcallLog, hcall]
    rfl
  have hg : (Node.lambda g).NoFinally := ⟨rfl, List.forall_mem_singleton.mpr ⟨rfl, nofun⟩⟩
  have hcall : call.NoFinally := ⟨rfl, List.forall_mem_singleton.mpr hg⟩
  have hf : (Node.lambda f).NoFinally := by
    refine ⟨rfl, List.forall_mem_singleton.mpr ⟨rfl, List.forall_mem_cons.mpr ⟨hcall, ?_⟩⟩⟩
    exact List.forall_mem_cons.mpr ⟨⟨rfl, nofun⟩, List.forall_mem_singleton.mpr ⟨rfl, nofun⟩⟩
  have hp : host.PassesOn := Host.scripts_nil fun _ => trivial
  obtain ⟨⟨t, ht, -⟩, -⟩ :=
    fatal_errors_uncaught host hp Host.scripts_nil_keeps f hf 4 [] s (by nofun) pre _ e hlog
  exact ⟨hlog, t, ht⟩

end ExprTree
