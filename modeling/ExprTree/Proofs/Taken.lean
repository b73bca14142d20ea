import ExprTree.Proofs.Trace
import ExprTree.Proofs.Writes

/-! The actions that a run of a plan takes, one after the other, and which nodes it evaluates by
them. -/
namespace ExprTree

/-- An action that a node takes, where it starts and how it ends. -/
structure Taken where
  action : Action
  start : State
  result : Except Signal Value
  final : State

def Action.node? : Action → Option Node
  | .eval n => some n
  | _ => none

/-- Whether the action is an assignment or the use of a handle that sets something. -/
def Action.writes : Action → Bool
  | .assign .. | .element .. | .use (.set ..) | .use (.setItem ..) => true
  | _ => false

/-- The nodes that are evaluated, in order. -/
def evaluated (ks : List Taken) : List Node := ks.filterMap (·.action.node?)

/-- What the actions do, in order. -/
def record (R : Recorder Event) (ks : List Taken) : Trace :=
  ks.flatMap fun k => k.action.trace R k.start

/-- The actions are taken one after the other. -/
inductive Chain (ev : Evaluator) : State → List Taken → State → Prop where
  | nil {s : State} : Chain ev s [] s
  | cons {a : Action} {r : Except Signal Value} {s t u : State} {ks : List Taken}
    (h : a.run ev s = .ended r t)
    (hs : Chain ev t ks u) : Chain ev s (⟨a, s, r, t⟩ :: ks) u

theorem evaluated_cons {k : Taken} {ks : List Taken} :
    evaluated (k :: ks) = k.action.node?.toList ++ evaluated ks := by
  rw [evaluated, List.filterMap_cons]
  cases k.action.node? <;> rfl

namespace Plan

variable {α β : Type} {R : Recorder Event} {p : Plan α} {f : α → Plan β} {n : Node}
  {ns ms : List Node} {s t : State}

/-! ### How plans end -/

theorem pure_ended {a : α} {r : Except Signal α}
    (he : (Plan.pure a).run R.toEvaluator s = .ended r t) : r = .ok a ∧ t = s := by
  have he : Outcome.ended (.ok a) s = .ended r t := he
  obtain ⟨hr, ht⟩ := Outcome.ended_inj.mp he
  exact ⟨hr.symm, ht.symm⟩

theorem signal_ended {x : Signal} {r : Except Signal α}
    (he : (Plan.signal x : Plan α).run R.toEvaluator s = .ended r t) : r = .error x ∧ t = s := by
  have he : Outcome.ended (.error x) s = .ended r t := he
  obtain ⟨hr, ht⟩ := Outcome.ended_inj.mp he
  exact ⟨hr.symm, ht.symm⟩

/-- An action is taken, and the plan goes on or is left. -/
theorem act_ended {a : Action} {next : Value → Plan α} {r : Except Signal α}
    (he : (act a next).run R.toEvaluator s = .ended r t) :
    ∃ q u, a.run R.toEvaluator s = .ended q u ∧
      ((∃ v, q = .ok v ∧ (next v).run R.toEvaluator u = .ended r t ∧
          (act a next).trace R s = a.trace R s ++ (next v).trace R u) ∨
        ∃ x, q = .error x ∧ r = .error x ∧ t = u ∧ (act a next).trace R s = a.trace R s) := by
  rw [run_act] at he
  rw [Plan.trace]
  cases ha : a.run R.toEvaluator s with
  | value v u =>
    rw [ha] at he
    exact ⟨.ok v, u, rfl, .inl ⟨v, rfl, he, rfl⟩⟩
  | signal x u =>
    rw [ha] at he
    have he : Outcome.ended (.error x) u = .ended r t := he
    obtain ⟨rfl, rfl⟩ := Outcome.ended_inj.mp he
    exact ⟨.error x, u, rfl, .inr ⟨x, rfl, rfl, rfl, List.append_nil _⟩⟩
  | endless =>
    rw [ha] at he
    exact absurd he.symm Outcome.ended_ne_endless

theorem bind_ended {r : Except Signal β} (he : (p >>= f).run R.toEvaluator s = .ended r t) :
    (∃ x, r = .error x ∧ p.run R.toEvaluator s = .ended (.error x) t ∧
      (p >>= f).trace R s = p.trace R s) ∨
      ∃ a u, p.run R.toEvaluator s = .ended (.ok a) u ∧ (f a).run R.toEvaluator u = .ended r t ∧
        (p >>= f).trace R s = p.trace R s ++ (f a).trace R u := by
  rw [run_bind, Eval.bind_eq] at he
  rw [trace_bind]
  cases hp : p.run R.toEvaluator s with
  | value a u =>
    rw [hp] at he
    exact .inr ⟨a, u, rfl, he, rfl⟩
  | signal x u =>
    rw [hp] at he
    have he : Outcome.ended (.error x) u = .ended r t := he
    obtain ⟨rfl, rfl⟩ := Outcome.ended_inj.mp he
    exact .inl ⟨x, rfl, rfl, List.append_nil _⟩
  | endless =>
    rw [hp] at he
    exact absurd he.symm Outcome.ended_ne_endless

theorem map_ended {g : α → β} {r : Except Signal β}
    (he : (g <$> p).run R.toEvaluator s = .ended r t) :
    ∃ q, p.run R.toEvaluator s = .ended q t ∧ r = q.map g ∧ (g <$> p).trace R s = p.trace R s := by
  rw [← bind_pure_comp] at he ⊢
  rcases bind_ended he with ⟨x, rfl, hp, htrace⟩ | ⟨a, u, hp, hr, htrace⟩
  · exact ⟨.error x, hp, rfl, htrace⟩
  · obtain ⟨rfl, rfl⟩ := pure_ended hr
    exact ⟨.ok a, hp, rfl, htrace.trans (List.append_nil _)⟩

theorem fault_ended {x : Fault} {g : α → Plan Value} {r : Except Signal Value}
    (he : (fault x >>= g).run R.toEvaluator s = .ended r t) :
    ∃ y, r = .error y ∧ s.Raised t ∧ (fault x >>= g).trace R s = [] := by
  cases x with
  | fatal e =>
    obtain ⟨rfl, rfl⟩ := signal_ended he
    exact ⟨_, rfl, .inl rfl, rfl⟩
  | raise c message =>
    obtain ⟨rfl, rfl⟩ :=
      signal_ended (s := { s with store := (s.store.newException c message).2 }) he
    exact ⟨_, rfl, .inr ⟨c, message, rfl⟩, rfl⟩
  | endless => exact absurd (Eq.symm he) Outcome.ended_ne_endless

theorem act_pure_ended {b : Action} {v : Value} {r : Except Signal Value}
    (he : (act b fun _ => .pure v).run R.toEvaluator s = .ended r t) :
    ∃ q, b.run R.toEvaluator s = .ended q t ∧ r = q.map (fun _ => v) ∧
      (act b fun _ => .pure v).trace R s = b.trace R s := by
  obtain ⟨q, u, hb, ⟨w, rfl, hw, htrace⟩ | ⟨x, rfl, rfl, rfl, htrace⟩⟩ := act_ended he
  · obtain ⟨rfl, rfl⟩ := pure_ended hw
    exact ⟨_, hb, rfl, htrace.trans (List.append_nil _)⟩
  · exact ⟨_, hb, rfl, htrace⟩

theorem ofExcept_ok {x : Except Fault α} {b : α}
    (he : (ofExcept x).run R.toEvaluator s = .ended (.ok b) t) : x = .ok b ∧ t = s := by
  cases x with
  | ok c =>
    obtain ⟨hb, rfl⟩ := pure_ended he
    exact ⟨congrArg _ (Except.ok.inj hb).symm, rfl⟩
  | error x => cases x <;> cases he

/-! ### The nodes that are evaluated -/

/-- The plan evaluates these nodes, in this order and each once, if it is not left before. It writes
nothing, and an exception that it makes is what it is left with. -/
inductive Visits {α : Type} : Plan α → List Node → Prop where
  | pure {a : α} : Visits (.pure a) []
  | signal {x : Signal} {ns : List Node} : Visits (.signal x) ns
  | endless {ns : List Node} : Visits .endless ns
  | look {next : View → Plan α} {ns : List Node} (h : ∀ w, Visits (next w) ns) :
    Visits (.look next) ns
  | eval {n : Node} {next : Value → Plan α} {ns : List Node} (h : ∀ v, Visits (next v) ns) :
    Visits (.act (.eval n) next) (n :: ns)
  | other {a : Action} {next : Value → Plan α} {ns : List Node} (hn : a.node? = none)
    (hw : a.writes = false)
    (h : ∀ v, Visits (next v) ns) : Visits (.act a next) ns
  | raise {c : ClassType} {message : String} {next : Value → Plan α} {ns : List Node}
    (h : ∀ v, next v = .signal (.thrown v)) : Visits (.act (.newException c message) next) ns

theorem Visits.bind (h : p.Visits ns) (hf : ∀ a, (f a).Visits ms) :
    (p >>= f).Visits (ns ++ ms) := by
  change (Plan.bind p f).Visits (ns ++ ms)
  induction h with
  | pure => exact hf _
  | signal => exact .signal
  | endless => exact .endless
  | look _ ih => exact .look ih
  | eval _ ih => exact .eval ih
  | other hn hw _ ih => exact .other hn hw ih
  | raise h =>
    refine .raise fun v => ?_
    rw [h]
    rfl

/-- What is done by a plan that has ended so. -/
structure Visited (R : Recorder Event) (ns : List Node) (s : State) {α : Type} (r : Except Signal α)
    (t : State) (tr : Trace) (ks : List Taken) (u : State) : Prop where
  chain : Chain R.toEvaluator s ks u
  trace : tr = record R ks
  unwritten : ∀ k ∈ ks, k.action.writes = false
  order : evaluated ks <+: ns
  all : ∀ a, r = .ok a → evaluated ks = ns ∧ t = u
  raised : ∀ x, r = .error x → u.Raised t

theorem Visited.cons {a : Action} {r : Except Signal α} {q : Except Signal Value} {u w : State}
    {tr : Trace} {ks : List Taken} (ha : a.run R.toEvaluator s = .ended q u) (hw : a.writes = false)
    (h : Visited R ns u r t tr ks w) :
    Visited R (a.node?.toList ++ ns) s r t (a.trace R s ++ tr) (⟨a, s, q, u⟩ :: ks) w where
  chain := .cons ha h.chain
  trace := by rw [h.trace]; rfl
  unwritten := List.forall_mem_cons.mpr ⟨hw, h.unwritten⟩
  order := by
    rw [evaluated_cons]
    exact (List.prefix_append_right_inj _).mpr h.order
  all b hb := by
    obtain ⟨heq, ht⟩ := h.all b hb
    rw [evaluated_cons, heq]
    exact ⟨rfl, ht⟩
  raised := h.raised

/-- The action is the last one. -/
theorem Visited.last {a : Action} {x : Signal} (ha : a.run R.toEvaluator s = .ended (.error x) t)
    (hw : a.writes = false) :
    Visited R (a.node?.toList ++ ns) s (.error x : Except Signal α) t (a.trace R s)
      [⟨a, s, .error x, t⟩] t where
  chain := .cons ha .nil
  trace := (List.append_nil _).symm
  unwritten := List.forall_mem_singleton.mpr hw
  order := by
    rw [evaluated_cons]
    exact (List.prefix_append_right_inj _).mpr List.nil_prefix
  all _ hr := nomatch hr
  raised _ _ := .inl rfl

/-- The plan takes the action and goes on in what it visits. -/
theorem visited_act {a : Action} {next : Value → Plan α} {r : Except Signal α}
    (hw : a.writes = false) (he : (act a next).run R.toEvaluator s = .ended r t)
    (hnext : ∀ v u, (next v).run R.toEvaluator u = .ended r t →
      ∃ ks w, Visited R ns u r t ((next v).trace R u) ks w) :
    ∃ ks u, Visited R (a.node?.toList ++ ns) s r t ((act a next).trace R s) ks u := by
  obtain ⟨q, u, ha, ⟨v, rfl, hv, htrace⟩ | ⟨x, rfl, rfl, rfl, htrace⟩⟩ := act_ended he
  · obtain ⟨ks, w, h⟩ := hnext v u hv
    rw [htrace]
    exact ⟨_, w, h.cons ha hw⟩
  · rw [htrace]
    exact ⟨_, t, .last ha hw⟩

theorem Visits.visited {r : Except Signal α} (h : p.Visits ns)
    (he : p.run R.toEvaluator s = .ended r t) : ∃ ks u, Visited R ns s r t (p.trace R s) ks u := by
  induction h generalizing s with
  | pure =>
    obtain ⟨rfl, rfl⟩ := pure_ended he
    exact ⟨[], t, .nil, rfl, List.forall_mem_nil _, List.nil_prefix,
      fun _ _ => ⟨rfl, rfl⟩, fun _ hx => nomatch hx⟩
  | signal =>
    obtain ⟨rfl, rfl⟩ := signal_ended he
    exact ⟨[], t, .nil, rfl, List.forall_mem_nil _, List.nil_prefix, (fun _ hx => nomatch hx),
      fun _ _ => .inl rfl⟩
  | endless =>
    rw [Plan.run] at he
    exact absurd he.symm Outcome.ended_ne_endless
  | look _ ih =>
    rw [run_look] at he
    exact ih _ he
  | eval _ ih => exact visited_act rfl he fun v u hv => ih v hv
  | @other a next ns hn hw _ ih =>
    have h := visited_act hw he fun v u hv => ih v hv
    rwa [hn] at h
  | @raise c message next ns hnext =>
    have ha :
        (Action.newException c message).run R.toEvaluator s =
          .value (s.store.newException c message).1
        { s with store := (s.store.newException c message).2 } := rfl
    rw [run_act, ha] at he
    change (next _).run _ _ = _ at he
    rw [hnext] at he
    obtain ⟨rfl, rfl⟩ := signal_ended he
    refine ⟨[], s, .nil, ?_, List.forall_mem_nil _, List.nil_prefix,
      (fun _ hx => nomatch hx), fun _ _ =>
      .inr ⟨c, message, rfl⟩⟩
    rw [Plan.trace, ha]
    change [] ++ (next _).trace R _ = []
    rw [hnext]
    rfl

/-! ### Operands -/

/-- The evaluation of nodes one after the other: of all, or up to the one that fails. -/
structure Operands (R : Recorder Event) (ns : List Node) (s : State) (ks : List Taken)
    (r : Except Signal (List Value)) (t : State) (tr : Trace) : Prop where
  chain : Chain R.toEvaluator s ks t
  trace : tr = record R ks
  order : ks.map Taken.action <+: ns.map .eval
  all : ∀ vs, r = .ok vs → ks.length = ns.length ∧ ks.map Taken.result = vs.map .ok

theorem Operands.cons {r : Except Signal (List Value)} {v : Value} {u : State} {tr : Trace}
    {ks : List Taken} (hn : (Action.eval n).run R.toEvaluator s = .ended (.ok v) u)
    (h : Operands R ns u ks r t tr) :
    Operands R (n :: ns) s (⟨.eval n, s, .ok v, u⟩ :: ks) (r.map (v :: ·)) t
      ((Action.eval n).trace R s ++ tr) where
  chain := .cons hn h.chain
  trace := by rw [h.trace]; rfl
  order := List.cons_prefix_cons.mpr ⟨rfl, h.order⟩
  all vs hvs := by
    cases r with
    | error x => cases hvs
    | ok ws =>
      cases hvs
      obtain ⟨hlength, hresults⟩ := h.all ws rfl
      exact ⟨congrArg Nat.succ hlength, congrArg _ hresults⟩

theorem Operands.last {x : Signal}
    (hn : (Action.eval n).run R.toEvaluator s = .ended (.error x) t) :
    Operands R (n :: ns) s [⟨.eval n, s, .error x, t⟩] (.error x) t
      ((Action.eval n).trace R s) where
  chain := .cons hn .nil
  trace := (List.append_nil _).symm
  order := List.cons_prefix_cons.mpr ⟨rfl, List.nil_prefix⟩
  all _ hvs := nomatch hvs

theorem operands_evalAll {r : Except Signal (List Value)}
    (he : (evalAll ns).run R.toEvaluator s = .ended r t) :
    ∃ ks, Operands R ns s ks r t ((evalAll ns).trace R s) := by
  induction ns generalizing s r with
  | nil =>
    obtain ⟨rfl, rfl⟩ := pure_ended he
    exact ⟨[], .nil, rfl, List.nil_prefix, fun _ hr => by cases hr; exact ⟨rfl, rfl⟩⟩
  | cons n ns ih =>
    change (act (.eval n) fun v => (v :: ·) <$> evalAll ns).run R.toEvaluator s = _ at he
    change ∃ ks, Operands R _ s ks r t ((act (.eval n) fun v => (v :: ·) <$> evalAll ns).trace R s)
    obtain ⟨q, u, hn, ⟨v, rfl, hv, htrace⟩ | ⟨x, rfl, rfl, rfl, htrace⟩⟩ := act_ended he
    · obtain ⟨q, hq, rfl, htrace'⟩ := map_ended hv
      obtain ⟨ks, h⟩ := ih hq
      rw [htrace, htrace']
      exact ⟨_, h.cons hn⟩
    · rw [htrace]
      exact ⟨_, .last hn⟩

end Plan

end ExprTree
