import ExprTree.Proofs.Detached
import ExprTree.Proofs.Link
import ExprTree.Proofs.OpaqueHost
import ExprTree.Proofs.Trace

/-! Two runs of linked nodes, step by step. A coupling says which links there are between the
interpreters of the one run and those of the other, and how the delegates that they made stand to
each other; if every part of it is kept by what nodes do, the runs end alike and do the same on
their way. -/
namespace ExprTree

variable {α β ι : Type}

structure Coupling (ι : Type) where
  link : ι → Link
  /-- What corresponding delegates are made of. -/
  body : DelegateBody → DelegateBody → Prop
  /-- The labels that host code may jump to. -/
  foreign : Label → Prop
  /-- Where there is no limit, the counts of steps need not be the same. -/
  uncounted : Prop

/-! ### What is seen of a run -/

/-- An event without the names that occur in it. -/
inductive Deed where
  | node
  | trip (limit : Nat)
  | use (c : HandleCall)
  | call (f : Value) (args : List Value)
  | convert (v : Value)
  | assign (v : Value)
  | element (addr position : Nat) (v : Value)
  | hang
  | inner (d : Deed)

def Event.deed : Event → Deed
  | .node _ => .node
  | .trip limit => .trip limit
  | .use c => .use c
  | .call f args => .call f args
  | .convert _ v => .convert v
  | .assign _ v => .assign v
  | .element addr position v => .element addr position v
  | .hang => .hang
  | .inner e => .inner e.deed

/-- What was done, in order. -/
def Trace.deeds (tr : Trace) : List Deed := tr.map Event.deed

namespace Trace

variable {tr tr' : Trace} {e : Event}

@[simp] theorem deeds_nil : deeds [] = [] := rfl

@[simp] theorem deeds_cons : deeds (e :: tr) = e.deed :: tr.deeds := rfl

@[simp] theorem deeds_append : deeds (tr ++ tr') = tr.deeds ++ tr'.deeds := List.map_append

@[simp] theorem deeds_inner : deeds (tr.map .inner) = tr.deeds.map .inner := by
  simp [deeds, Event.deed, Function.comp_def]

end Trace

/-! ### Outcomes that are alike -/

section

variable (X : Signal → Signal → Prop) (S : State → State → Prop) (Q : α → α → Prop)

inductive Results : Except Signal α → Except Signal α → Prop where
  | ok {a b : α} (h : Q a b) : Results (.ok a) (.ok b)
  | error {x y : Signal} (h : X x y) : Results (.error x) (.error y)

inductive Outcome.Alike : Outcome α → Outcome α → Prop where
  | value {a b : α} {s t : State} (h : Q a b) (hs : S s t) : Alike (.value a s) (.value b t)
  | signal {x y : Signal} {s t : State} (h : X x y) (hs : S s t) : Alike (.signal x s) (.signal y t)
  | endless : Alike .endless .endless

/-- The runs end alike and did the same. -/
structure Twins (o o' : Outcome α) (tr tr' : Trace) : Prop where
  outcome : o.Alike X S Q o'
  deeds : tr'.deeds = tr.deeds

end

namespace Twins

variable {X X' : Signal → Signal → Prop} {S S' : State → State → Prop} {Q : α → α → Prop}
  {P : β → β → Prop} {o o' : Outcome α} {tr tr' : Trace} {s t : State}

theorem done {a b : α} (h : Q a b) (hs : S s t) : Twins X S Q (.value a s) (.value b t) tr tr :=
  ⟨.value h hs, rfl⟩

theorem failed {x y : Signal} (h : X x y) (hs : S s t) :
    Twins X S Q (.signal x s : Outcome α) (.signal y t) tr tr :=
  ⟨.signal h hs, rfl⟩

theorem cut : Twins X S Q (.endless : Outcome α) .endless tr tr := ⟨.endless, rfl⟩

theorem cons {e e' : Event} (he : e'.deed = e.deed) (h : Twins X S Q o o' tr tr') :
    Twins X S Q o o' (e :: tr) (e' :: tr') :=
  ⟨h.outcome, by rw [Trace.deeds_cons, Trace.deeds_cons, he, h.deeds]⟩

theorem inner (h : Twins X S Q o o' tr tr') : Twins X S Q o o' (tr.map .inner) (tr'.map .inner) :=
  ⟨h.outcome, by rw [Trace.deeds_inner, Trace.deeds_inner, h.deeds]⟩

theorem andThen {g g' : Except Signal α → State → Outcome β}
    {k k' : Except Signal α → State → Trace} (h : Twins X S Q o o' tr tr')
    (hg : ∀ r r' s t, Results X Q r r' → S s t →
      Twins X' S' P (g r s) (g' r' t) (k r s) (k' r' t)) :
    Twins X' S' P (o.andThen g) (o'.andThen g') (tr ++ o.after k) (tr' ++ o'.after k') := by
  obtain ⟨ho, htr⟩ := h
  cases ho with
  | value h hs =>
    obtain ⟨ho, hk⟩ := hg _ _ _ _ (.ok h) hs
    exact ⟨ho, by simp [Outcome.after, htr, hk]⟩
  | signal h hs =>
    obtain ⟨ho, hk⟩ := hg _ _ _ _ (.error h) hs
    exact ⟨ho, by simp [Outcome.after, htr, hk]⟩
  | endless => exact ⟨.endless, by simp [Outcome.after, htr]⟩

/-- The same where nothing is recorded of what comes second. -/
theorem map {g g' : Except Signal α → State → Outcome β} (h : Twins X S Q o o' tr tr')
    (hg : ∀ r r' s t, Results X Q r r' → S s t → (g r s).Alike X' S' P (g' r' t)) :
    Twins X' S' P (o.andThen g) (o'.andThen g') tr tr' := by
  obtain ⟨ho, htr⟩ := h
  cases ho with
  | value h hs => exact ⟨hg _ _ _ _ (.ok h) hs, htr⟩
  | signal h hs => exact ⟨hg _ _ _ _ (.error h) hs, htr⟩
  | endless => exact ⟨.endless, htr⟩

theorem mono (h : Twins X S Q o o' tr tr') (hx : ∀ x y, X x y → X' x y)
    (hs : ∀ s t, S s t → S' s t) : Twins X' S' Q o o' tr tr' := by
  obtain ⟨ho, htr⟩ := h
  cases ho with
  | value h hst => exact ⟨.value h (hs _ _ hst), htr⟩
  | signal h hst => exact ⟨.signal (hx _ _ h) (hs _ _ hst), htr⟩
  | endless => exact ⟨.endless, htr⟩

/-- The callers are related, and what they called left related stores. -/
theorem onto {u v : State} (h : Twins X S Q o o' tr tr')
    (hs : ∀ s t, S s t → S' { u with store := s.store } { v with store := t.store }) :
    Twins X S' Q (o.onto u) (o'.onto v) tr tr' := by
  obtain ⟨ho, htr⟩ := h
  cases ho with
  | value h hst => exact ⟨.value h (hs _ _ hst), htr⟩
  | signal h hst => exact ⟨.signal h (hs _ _ hst), htr⟩
  | endless => exact ⟨.endless, htr⟩

end Twins

/-! ### States -/

namespace Coupling

variable (C : Coupling ι)

/-- The states of linked interpreters, but for the store; `e` tells what the frames of the first
bind. -/
structure Near (i : ι) (e : Environment) (s t : State) : Prop where
  env : (C.link i).env s.env t.env
  shape : s.env.shape = e.shape
  handling : t.handling = s.handling
  limit : t.limit = s.limit
  steps : t.steps = s.steps ∨ C.uncounted ∧ s.limit = none

abbrev Stores (s t : Store) : Prop := s.Paired C.body t

structure States (i : ι) (e : Environment) (s t : State) : Prop extends C.Near i e s t where
  store : C.Stores s.store t.store

/-- A signal that leaves a call is not translated. -/
def Passes (x y : Signal) : Prop := y = x ∧ x.Within C.foreign

/-- Runs of linked nodes. -/
abbrev Runs (i : ι) (e : Environment) (Q : α → α → Prop) :
    Outcome α → Outcome α → Trace → Trace → Prop :=
  Twins (C.link i).Signals (C.States i e) Q

/-- Runs of what linked interpreters call. -/
abbrev Calls (i : ι) (e : Environment) : Outcome Value → Outcome Value → Trace → Trace → Prop :=
  Twins C.Passes (C.States i e) Eq

end Coupling

/-! ### What makes a coupling work -/

/-- The lambdas differ in names only. -/
structure Link.Lambdas (L : Link) (f g : Lambda) : Prop where
  name : g.name = f.name
  ret : g.ret = f.ret
  params : List.Forall₂ L.Names f.params g.params
  body : L.node f.body g.body

/-- Environments go on corresponding when they change in corresponding ways. -/
structure Link.Lawful (L : Link) : Prop where
  enter {d e : Environment} {bs cs : Slots} (h : L.env d e) (hb : L.Binds bs cs) :
    L.env (d.push.defineAll bs) (e.push.defineAll cs)
  leave {d e base : Environment} {bs cs : Slots} (h : L.env d e) (hb : L.Binds bs cs)
    (hs : d.shape = (base.push.defineAll bs).shape) : L.env d.pop e.pop
  assign {d e : Environment} {i j : Nat} (h : L.env d e) (hi : L.slot i j) (v : Value) :
    Option.Rel L.env (d.assign? i v) (e.assign? j v)
  /-- Labels are told apart on both sides alike. -/
  label {k k' l l' : Label} (h : L.label k k') (hl : L.label l l') : k.id = l.id ↔ k'.id = l'.id
  lambda {f g : Lambda} (h : L.node (.lambda f) (.lambda g)) : L.Lambdas f g
  plan {n m : Node} (h : L.node n m) : n.plan.Linked L Eq m.plan

/-- What corresponding delegates do when they are called. -/
inductive Coupling.Callees (C : Coupling ι) : DelegateBody → DelegateBody → Prop where
  | closure {f g : Lambda} {c d : Slots} (i : ι) (hf : (C.link i).node (.lambda f) (.lambda g))
    (he : (C.link i).env (.ofCaptures c) (.ofCaptures d)) (l : Option Nat) :
    Callees C (.closure f c l) (.closure g d l)
  | host (id : Nat) : Callees C (.host id) (.host id)

structure Coupling.Lawful (C : Coupling ι) : Prop where
  link (i : ι) : (C.link i).Lawful
  foreign {l : Label} (h : C.foreign l) (i : ι) : (C.link i).label l l
  closure {i : ι} {f g : Lambda} {d e : Environment} (hf : (C.link i).node (.lambda f) (.lambda g))
    (he : (C.link i).env d e) (l : Option Nat) :
    C.body (.closure f d.capture l) (.closure g e.capture l)
  callees {a b : DelegateBody} (h : C.body a b) : C.Callees a b

/-! ### The states of linked interpreters -/

/-- The environment over another, for the frame. -/
def Frame.over (f : Frame) (e : Environment) : Environment :=
  match f with
  | .bindings bs => e.push.defineAll bs
  | .handling _ => e

theorem Environment.shape_push_defineAll {d e : Environment} (h : d.shape = e.shape) (bs : Slots) :
    (d.push.defineAll bs).shape = (e.push.defineAll bs).shape := by
  rw [push_defineAll, push_defineAll]
  exact congrArg (_ :: ·) h

namespace Coupling

variable {C : Coupling ι} {i : ι} {e : Environment} {s t : State}

theorem Near.withStore (h : C.Near i e s t) {u v : Store} (hu : C.Stores u v) :
    C.States i e { s with store := u } { t with store := v } :=
  ⟨⟨h.env, h.shape, h.handling, h.limit, h.steps⟩, hu⟩

theorem Near.withHandling (h : C.Near i e s t) {handling handling' : List Value}
    (hh : handling' = handling) : C.Near i e { s with handling } { t with handling := handling' } :=
  ⟨h.env, h.shape, hh, h.limit, h.steps⟩

theorem Near.withEnv (h : C.Near i e s t) {d d' base : Environment} (hd : (C.link i).env d d')
    (hs : d.shape = base.shape) : C.Near i base { s with env := d } { t with env := d' } :=
  ⟨hd, hs, h.handling, h.limit, h.steps⟩

/-- A step more in both. -/
theorem Near.ticked (h : C.Near i e s t) : C.Near i e s.ticked t.ticked :=
  ⟨h.env, h.shape, h.handling, h.limit, h.steps.imp (congrArg (· + 1)) id⟩

/-- The counts matter only where there is a limit, and there they are the same. -/
theorem Near.spent? (h : C.Near i e s t) : t.spent? = s.spent? := by
  unfold State.spent?
  rw [h.limit]
  rcases h.steps with hs | ⟨-, hl⟩
  · rw [hs]
  · rw [hl]

namespace States

variable (hs : C.States i e s t)

include hs

theorem near : C.Near i e s t := hs.toNear

theorem view : (C.link i).Sees s.view t.view :=
  ⟨hs.env, hs.handling, hs.store.bare⟩

theorem ticked : C.States i e s.ticked t.ticked := ⟨hs.near.ticked, hs.store⟩

variable (hL : (C.link i).Lawful)

include hL

theorem enter {f g : Frame} (hf : (C.link i).Frames f g) :
    C.States i (f.over e) (f.enter s) (g.enter t) := by
  cases hf with
  | bindings h =>
    exact ⟨hs.near.withEnv (hL.enter hs.env h) (Environment.shape_push_defineAll hs.shape _),
      hs.store⟩
  | handling x => exact ⟨hs.near.withHandling (by rw [hs.handling]), hs.store⟩

omit hs in
theorem leave {f g : Frame} (hf : (C.link i).Frames f g) (hs : C.States i (f.over e) s t) :
    C.States i e (f.leave s) (g.leave t) := by
  cases hf with
  | bindings h =>
    exact ⟨hs.near.withEnv (hL.leave hs.env h hs.shape) (Environment.shape_pop hs.shape), hs.store⟩
  | handling x => exact ⟨hs.near.withHandling (by rw [hs.handling]), hs.store⟩

end States

end Coupling

/-- What the parameters of the lambdas are bound to. -/
theorem Link.Lambdas.binds {L : Link} {f g : Lambda} (h : L.Lambdas f g) (args : List Value) :
    L.Binds ((f.params.map Param.id).zip args) ((g.params.map Param.id).zip args) := by
  have hp := h.params
  generalize f.params = ps, g.params = qs at hp
  induction hp generalizing args with
  | nil => exact .nil
  | cons hp _ ih =>
    cases args with
    | nil => exact .nil
    | cons v args => exact .cons ⟨hp.id, rfl⟩ (ih args)

theorem Link.Lambdas.signature {L : Link} {f g : Lambda} (h : L.Lambdas f g) :
    g.signature = f.signature := by
  have hp := h.params
  have ht : g.params.map Param.ty = f.params.map Param.ty := by
    generalize f.params = ps, g.params = qs at hp
    induction hp with
    | nil => rfl
    | cons hp _ ih => rw [List.map_cons, List.map_cons, hp.ty, ih]
  rw [Lambda.signature, Lambda.signature, ht, h.ret]

namespace Coupling

variable {C : Coupling ι} {i : ι} {e : Environment} {s t : State}

theorem States.entered (hs : C.States i e s t) (hL : (C.link i).Lawful) {f g : Lambda}
    (hf : (C.link i).Lambdas f g) (args : List Value) :
    C.States i ((Frame.bindings ((f.params.map Param.id).zip args)).over e) (s.entered f args)
      (t.entered g args) := by
  refine States.enter ?_ hL (.bindings (hf.binds args))
  exact ⟨⟨hs.env, hs.shape, rfl, hs.limit, .inl rfl⟩, hs.store⟩

end Coupling

namespace Recorder

variable {R R' : Recorder Event} {C : Coupling ι}

/-- The recorders run linked nodes alike. -/
structure Coupled (C : Coupling ι) (R R' : Recorder Event) : Prop where
  host : R'.host = R.host
  blind : R.host.Opaque C.body C.foreign
  depth : R'.depth = R.depth
  eval {i : ι} {n m : Node} (h : (C.link i).node n m) {e : Environment} {s t : State}
    (hs : C.States i e s t) : C.Runs i e Eq (R.eval n s) (R'.eval m t) (R.trace n s) (R'.trace m t)

theorem passes_fatal {e : EvalError} : C.Passes (.fatal e) (.fatal e) := ⟨rfl, nofun⟩

theorem passes_thrown {x : Value} : C.Passes (.thrown x) (.thrown x) := ⟨rfl, nofun⟩

theorem signals_of_passes (hC : C.Lawful) (i : ι) {x y : Signal} (h : C.Passes x y) :
    (C.link i).Signals x y := by
  obtain ⟨rfl, hx⟩ := h
  cases y with
  | fatal e => exact .fatal e
  | thrown x => exact .thrown x
  | jump l v => exact .jump ⟨hC.foreign (hx l v rfl) i, rfl, rfl⟩ v

theorem beq_targets {L : Link} (hL : L.Lawful) {b b' : Option Label}
    (hb : Option.Rel L.Targets b b') {k l : Label} (h : L.Targets k l) :
    (b' == some l) = (b == some k) := by
  cases hb with
  | none => rfl
  | @some a a' ha =>
    have hi : (a'.id == l.id) = (a.id == k.id) := by
      rw [Bool.eq_iff_iff, beq_iff_eq, beq_iff_eq]
      exact (hL.label ha.label h.label).symm
    exact hi

section

variable (hC : C.Lawful) (hR : Coupled C R R') {i : ι} {e : Environment} {s t : State}

include hC hR

omit hC in
theorem sequence_coupled {all all' es es' : List Node} (ha : (C.link i).Sequences all all')
    (he : List.Forall₂ (C.link i).node es es') (k : Nat) (last : Value) (hs : C.States i e s t) :
    C.Runs i e Eq (R.runSequence all k es last s) (R'.runSequence all' k es' last t)
      (R.sequence all k es s) (R'.sequence all' k es' t) := by
  induction k generalizing es es' last s t with
  | zero => cases he with
    | nil => exact .done rfl hs
    | cons => exact .cut
  | succ k ih => cases he with
    | nil => exact .done rfl hs
    | cons hn he =>
      rw [Evaluator.runSequence_go, Evaluator.runSequence_go]
      refine (hR.eval hn hs).andThen fun r r' s t hr hs => ?_
      cases hr with
      | ok h =>
        subst h
        exact ih he _ hs
      | error h => cases h with
        | fatal x => exact .failed (.fatal x) hs
        | thrown x => exact .failed (.thrown x) hs
        | @jump l l' hl v =>
          have hrest := ha.rest hl
          dsimp only [rest?]
          generalize Evaluator.afterLabel? l all = o, Evaluator.afterLabel? l' all' = o' at hrest ⊢
          cases hrest with
          | none => exact .failed (.jump hl v) hs
          | some h => exact ih h v hs

theorem loop_coupled {body body' : Node} {b b' c c' : Option Label}
    (hn : (C.link i).node body body') (hb : Option.Rel (C.link i).Targets b b')
    (hc : Option.Rel (C.link i).Targets c c') {k : Nat} (hs : C.States i e s t) :
    C.Runs i e Eq (R.runLoop body b c k s) (R'.runLoop body' b' c' k t)
      (R.loop body b c k s) (R'.loop body' b' c' k t) := by
  induction k generalizing s t with
  | zero => exact .cut
  | succ k ih =>
    rw [Evaluator.runLoop_go, Evaluator.runLoop_go]
    refine (hR.eval hn hs).andThen fun r r' s t hr hs => ?_
    cases hr with
    | ok h => exact ih hs
    | error h => cases h with
      | fatal x => exact .failed (.fatal x) hs
      | thrown x => exact .failed (.thrown x) hs
      | @jump l l' hl v =>
        have hres : l'.ty.result v = l.ty.result v := by rw [hl.ty]
        dsimp only [again]
        rw [beq_targets (hC.link i) hb hl, beq_targets (hC.link i) hc hl, hres]
        cases b == some l with
        | true => exact .done rfl hs
        | false => cases c == some l with
          | true => exact ih hs
          | false => exact .failed (.jump hl v) hs

/-- No jump leaves a lambda, and so what does is the same on both sides. -/
theorem lambda_coupled {f g : Lambda} (hf : (C.link i).node (.lambda f) (.lambda g))
    (args : List Value) (hs : C.States i e s t) :
    C.Calls i e (R.runLambda f args s) (R'.runLambda g args t)
      (R.lambda f args s) (R'.lambda g args t) := by
  have hl := (hC.link i).lambda hf
  rw [Evaluator.runLambda_eq, Evaluator.runLambda_eq, lambda, lambda, hl.name, hl.ret,
    ← hl.params.length_eq]
  split
  · exact .failed passes_fatal hs
  · refine (hR.eval hl.body (hs.entered (hC.link i) hl args)).map fun r r' s t hr hs => ?_
    have hs := hs.leave (hC.link i) (.bindings (hl.binds args))
    cases hr with
    | ok h =>
      subst h
      exact .value rfl hs
    | error h => cases h with
      | fatal x => exact .signal passes_fatal hs
      | thrown x => exact .signal passes_thrown hs
      | jump hl v =>
        dsimp only
        rw [hl.text]
        exact .signal passes_fatal hs

theorem call_coupled {j : ι} {f g : Lambda} {c d : Slots}
    (hf : (C.link j).node (.lambda f) (.lambda g))
    (he : (C.link j).env (.ofCaptures c) (.ofCaptures d)) {l : Option Nat} {args : List Value}
    (hs : C.States i e s t) : C.Calls i e (R.callLambda f c l args s) (R'.callLambda g d l args t)
      ((R.lambda f args (s.isolated c l)).map .inner)
        ((R'.lambda g args (t.isolated d l)).map .inner) := by
  have hin : C.States j (.ofCaptures c) (s.isolated c l) (t.isolated d l) :=
    ⟨⟨he, rfl, rfl, rfl, .inl rfl⟩, hs.store⟩
  unfold Evaluator.callLambda
  rw [Evaluator.isolated_eq, Evaluator.isolated_eq]
  exact ((lambda_coupled hC hR hf args hin).onto fun u v hu => hs.near.withStore hu.store).inner

end

/-! ### Host code and delegates -/

section

variable {i : ι} {e : Environment} {s t : State}

/-- Calls of the same delegates are coupled. -/
def Answers (C : Coupling ι) (call call' : Value → List Value → Eval Value)
    (rec rec' : Value → List Value → State → Trace) : Prop :=
  ∀ f args i e s t, C.States i e s t →
    C.Calls i e (call f args s) (call' f args t) (rec f args s) (rec' f args t)

theorem routine_coupled {call call' : Value → List Value → Eval Value}
    {rec rec' : Value → List Value → State → Trace} (hc : Answers C call call' rec rec')
    {r r' : Routine} (hr : r.Pairs C.Stores C.foreign r') (hs : C.Near i e s t) :
    C.Calls i e (Evaluator.runRoutine call r s) (Evaluator.runRoutine call' r' t)
      (routine call rec r s) (routine call' rec' r' t) := by
  induction hr generalizing s t with
  | finish r h hx =>
    cases r with
    | ok v => exact .done rfl (hs.withStore h)
    | error x => exact .failed ⟨rfl, hx x rfl⟩ (hs.withStore h)
  | invoke f args h hk ih =>
    rw [Evaluator.runRoutine_invoke, Evaluator.runRoutine_invoke]
    refine (hc f args i e _ _ (hs.withStore h)).andThen fun r r' s t hr hs => ?_
    have hn : C.Near i e { s with store := {} } { t with store := {} } :=
      ⟨hs.env, hs.shape, hs.handling, hs.limit, hs.steps⟩
    cases hr with
    | ok h =>
      subst h
      exact ih (.ok _) _ _ nofun hs.store hn
    | error h =>
      obtain ⟨rfl, hx⟩ := h
      refine ih _ _ _ ?_ hs.store hn
      rintro _ ⟨⟩
      exact hx

theorem onStore_coupled {call call' : Value → List Value → Eval Value}
    {rec rec' : Value → List Value → State → Trace} (hc : Answers C call call' rec rec')
    {run : Store → Routine} (hr : Routine.Opaque C.Stores C.foreign run) (hs : C.States i e s t) :
    C.Calls i e (Evaluator.onStore call run s) (Evaluator.onStore call' run t)
      ((routine call rec (run s.store) { s with store := {} }).map .inner)
      ((routine call' rec' (run t.store) { t with store := {} }).map .inner) := by
  have hn : C.Near i e { s with store := {} } { t with store := {} } :=
    ⟨hs.env, hs.shape, hs.handling, hs.limit, hs.steps⟩
  exact (routine_coupled hc (hr _ _ hs.store) hn).inner

theorem change_calls {g : Store → α × Store} {a : α → Value} (hg : Store.Oblivious g)
    (hs : C.States i e s t) {tr : Trace} :
    C.Calls i e (.value (a (g s.store).1) { s with store := (g s.store).2 })
      (.value (a (g t.store).1) { t with store := (g t.store).2 }) tr tr := by
  obtain ⟨hv, hst⟩ := hs.store.change hg
  rw [hv]
  exact .done rfl (hs.near.withStore hst)

theorem fault_calls {x : Fault} (hs : C.States i e s t) {tr : Trace} :
    C.Calls i e ((Eval.fault x : Eval Value) s) (Eval.fault x t) tr tr := by
  cases x with
  | fatal x => exact .failed passes_fatal hs
  | raise c message =>
    obtain ⟨hv, hst⟩ := hs.store.change (g := fun s => s.newException c message) fun _ _ => rfl
    change C.Calls i e (.signal (.thrown (s.store.newException c message).1) _)
      (.signal (.thrown (t.store.newException c message).1) _) _ _
    rw [hv]
    exact .failed passes_thrown (hs.near.withStore hst)
  | endless => exact .cut

variable (hC : C.Lawful) (hR : Coupled C R R')

include hC hR

/-- Corresponding delegates are called, if the host code that may stand behind them is coupled. -/
theorem dispatch_coupled {f : Value} {args : List Value} {k : Nat} (hs : C.States i e s t)
    (hh : ∀ id, C.Calls i e (R.hostDelegate id args k s) (R'.hostDelegate id args k t)
      ((R.hostTrace id args k s).map .inner) ((R'.hostTrace id args k t).map .inner)) :
    C.Calls i e (R.callDelegate k f args s) (R'.callDelegate k f args t)
      (R.delegate k f args s) (R'.delegate k f args t) := by
  by_cases hf : ∃ sig addr, f = .delegate sig addr
  · obtain ⟨sig, addr, rfl⟩ := hf
    rw [Evaluator.callDelegate_eq, Evaluator.callDelegate_eq, delegate_eq, delegate_eq]
    refine .cons rfl ?_
    split
    · exact .failed passes_fatal hs
    · have hd := hs.store.delegates addr
      generalize s.store.delegates[addr]? = b, t.store.delegates[addr]? = b' at hd ⊢
      cases hd with
      | none => exact .cut
      | some hb => cases hC.callees hb with
        | closure j hf he l => exact call_coupled hC hR hf he hs
        | host id => exact hh id
  · simp only [not_exists] at hf
    obtain ⟨x, -, hx⟩ := Evaluator.callDelegate_fault hf
    rw [hx, hx, delegate_fault hf, delegate_fault hf]
    exact fault_calls hs

theorem delegate_coupled (k : Nat) :
    Answers C (R.callDelegate k) (R'.callDelegate k) (R.delegate k) (R'.delegate k) := by
  induction k with
  | zero => exact fun f args i e s t hs => dispatch_coupled hC hR hs fun _ => .cut
  | succ k ih =>
    intro f args i e s t hs
    refine dispatch_coupled hC hR hs fun id => ?_
    have h := onStore_coupled ih (hR.blind _ (.delegate id args)) hs
    simp only [Evaluator.hostDelegate, hostTrace, hR.host]
    exact h

/-! ### Actions, plans and nodes -/

theorem action_coupled {a b : Action} (ha : (C.link i).Acts a b) (hs : C.States i e s t) :
    C.Runs i e Eq (a.run R.toEvaluator s) (b.run R'.toEvaluator t) (a.trace R s)
      (b.trace R' t) := by
  have call {o o' : Outcome Value} {tr tr' : Trace} (h : C.Calls i e o o' tr tr') :
      C.Runs i e Eq o o' tr tr' := h.mono (fun _ _ => signals_of_passes hC i) fun _ _ => id
  cases ha with
  | eval h => exact hR.eval h hs
  | sequence h =>
    have hseq := sequence_coupled hR h h.nodes R.depth .void hs
    simp only [Action.run, Action.trace, hR.depth]
    exact hseq
  | loop h hb hc =>
    have hloop := loop_coupled hC hR h hb hc (k := R.depth) hs
    simp only [Action.run, Action.trace, hR.depth]
    exact hloop
  | use c =>
    refine .cons rfl (call ?_)
    change C.Calls i e (Evaluator.onStore R.invoke (c.routine R.host) s)
      (Evaluator.onStore R'.invoke (c.routine R'.host) t) _ _
    unfold Evaluator.invoke
    rw [hR.host, hR.depth]
    exact onStore_coupled (delegate_coupled hC hR R.depth) (hR.blind.routine c) hs
  | invoke f args =>
    have hcall := delegate_coupled hC hR R.depth f args i e s t hs
    simp only [Action.run, Action.trace, Evaluator.invoke, hR.depth]
    exact call hcall
  | convert h v =>
    refine .cons rfl (call ?_)
    change C.Calls i e (R.callLambda _ s.env.capture s.limit [v] s)
      (R'.callLambda _ t.env.capture t.limit [v] t) _ _
    rw [hs.limit]
    cases hC.callees (hC.closure h hs.env s.limit) with
    | closure j hf he l => exact call_coupled hC hR hf he hs
  | @assign p q h v =>
    have ha := (hC.link i).assign hs.env h.id v
    change C.Runs i e Eq (Eval.bind (Evaluator.assign p v) _ s)
      (Eval.bind (Evaluator.assign q v) _ t) _ _
    refine ⟨?_, rfl⟩
    unfold Eval.bind Evaluator.assign
    cases hd : s.env.assign? p.id v with
    | none =>
      rw [hd] at ha
      generalize t.env.assign? q.id v = o at ha ⊢
      cases ha
      dsimp only [Eval.fatal, Eval.signal]
      rw [h.text]
      exact .signal (.fatal _) hs
    | some d =>
      have hshape := (Environment.assign?_spec hd).1
      rw [hd] at ha
      generalize t.env.assign? q.id v = o at ha ⊢
      cases ha with
      | some he => exact .value rfl ⟨hs.near.withEnv he (hshape.trans hs.shape), hs.store⟩
  | element addr position v =>
    exact call
      (change_calls (g := fun s => ((), s.setArrayItem addr position v)) (a := fun _ => .void)
      (fun _ _ => rfl) hs)
  | newArray elem items =>
    exact call (change_calls (g := fun s => s.newArray elem items) (a := id) (fun _ _ => rfl) hs)
  | newException c message =>
    exact call (change_calls (g := fun s => s.newException c message) (a := id) (fun _ _ => rfl) hs)
  | @closure f g h =>
    have hsig := ((hC.link i).lambda h).signature
    have hb : C.body (.closure f s.env.capture s.limit) (.closure g t.env.capture t.limit) := by
      rw [hs.limit]
      exact hC.closure h hs.env s.limit
    obtain ⟨hv, hst⟩ := hs.store.newDelegate f.signature hb
    change C.Runs i e Eq
      (.value (s.store.newDelegate f.signature (.closure f s.env.capture s.limit)).1 _)
      (.value (t.store.newDelegate g.signature (.closure g t.env.capture t.limit)).1 _) _ _
    rw [hsig, hv]
    exact .done rfl (hs.near.withStore hst)

theorem plan_coupled {L : Link} (hi : C.link i = L) {Q : α → α → Prop} {p q : Plan α}
    (h : p.Linked L Q q) (hs : C.States i e s t) :
    C.Runs i e Q (p.run R.toEvaluator s) (q.run R'.toEvaluator t) (p.trace R s) (q.trace R' t) := by
  subst hi
  induction h generalizing e s t with
  | pure h => exact .done h hs
  | signal h => exact .failed h hs
  | endless => exact .cut
  | look h ih => exact ih _ _ hs.view hs
  | peek h ih => exact ih _ _ hs.view hs
  | act ha h ih =>
    rw [Plan.run_act, Plan.run_act, Plan.trace, Plan.trace]
    refine (action_coupled hC hR ha hs).andThen fun r r' s t hr hs => ?_
    cases hr with
    | ok h =>
      subst h
      exact ih _ hs
    | error h => exact .failed h hs
  | within hf hp h ihp ih =>
    rw [Plan.run_within, Plan.run_within, Plan.trace, Plan.trace]
    refine (ihp (hs.enter (hC.link i) hf)).andThen fun r r' s t hr hs => ?_
    have hs := hs.leave (hC.link i) hf
    cases hr with
    | ok h =>
      subst h
      exact ih _ hs
    | error h => exact .failed h hs
  | attempt hp h ihp ih =>
    rw [Plan.run_attempt, Plan.run_attempt, Plan.trace, Plan.trace]
    refine (ihp hs).andThen fun r r' s t hr hs => ?_
    cases hr with
    | ok h =>
      subst h
      exact ih _ _ (.value _) hs
    | error h => cases h with
      | fatal x => exact .failed (.fatal x) hs
      | thrown x => exact ih _ _ (.thrown x) hs
      | jump hl v => exact ih _ _ (.jump hl v) hs
  | final hp hn h ihp ih =>
    rw [Plan.run_final, Plan.run_final, Plan.trace, Plan.trace]
    refine (ihp hs).andThen fun r r' s t hr hs => (hR.eval hn hs).andThen fun q q' s t hq hs => ?_
    cases hq with
    | error h => cases hr <;> exact .failed h hs
    | ok _ => cases hr with
      | ok h =>
        subst h
        exact ih _ hs
      | error h => exact .failed h hs

end

end Recorder

/-- Linked nodes run alike from states that correspond. -/
theorem coupled {C : Coupling ι} (hC : C.Lawful) {host : Host} (hb : host.Opaque C.body C.foreign)
    (n : Nat) : Recorder.Coupled C (recorder host n) (recorder host n) := by
  induction n with
  | zero => exact ⟨rfl, hb, rfl, fun _ _ _ _ _ => .cut⟩
  | succ n ih =>
    refine ⟨rfl, hb, rfl, fun {i node node'} h e s t hs => ?_⟩
    change C.Runs i e Eq (eval host (n + 1) node s) (eval host (n + 1) node' t)
      (trace host (n + 1) node s) (trace host (n + 1) node' t)
    rw [eval_succ, eval_succ, trace, trace, hs.near.spent?]
    cases s.spent? with
    | some limit => exact .failed (.fatal _) hs.ticked
    | none => exact .cons rfl (Recorder.plan_coupled hC ih rfl ((hC.link i).plan h) hs.ticked)

/-! ### The same node twice -/

theorem Link.same_lawful : Link.same.Lawful where
  enter h hb := by
    obtain rfl := same_binds.mp hb
    rw [h]
    rfl
  leave h _ _ := congrArg Environment.pop h
  assign {d e i j} h hi v := by
    obtain rfl : d = e := h
    obtain rfl : i = j := hi
    cases d.assign? i v with
    | none => exact .none
    | some e => exact .some rfl
  label h hl := by
    rw [h, hl]
  lambda {f g} h := by
    obtain rfl : f = g := Node.lambda.inj h
    exact ⟨rfl, rfl, List.forall₂_same.mpr fun _ _ => same_names.mpr rfl, rfl⟩
  plan {n m} h := by
    obtain rfl : n = m := h
    exact n.plan.linked_same

namespace Coupling

/-- One run twice, from states that may differ in the count of steps where there is no limit. -/
def recounted : Coupling Unit := ⟨fun _ => .same, Eq, fun _ => True, True⟩

theorem recounted_lawful : recounted.Lawful where
  link _ := Link.same_lawful
  foreign _ _ := rfl
  closure {_ f g d e} hf he l := by
    obtain rfl : f = g := Node.lambda.inj hf
    obtain rfl : d = e := he
    rfl
  callees {a b} h := by
    obtain rfl : a = b := h
    cases a with
    | closure f c l => exact .closure () rfl rfl l
    | host id => exact .host id

/-- Interpreters that the link tells how to compare, beside each other; and any other interpreter
beside itself. -/
def beside (L : Link) (D : DelegateBody → DelegateBody → Prop) (J : Label → Prop) :
    Coupling Bool where
  link linked := if linked then L else .same
  body := D
  foreign := J
  uncounted := False

theorem beside_lawful {L : Link} {D : DelegateBody → DelegateBody → Prop} {J : Label → Prop}
    (hL : L.Lawful) (hJ : ∀ l, J l → L.label l l) (hD : ∀ b, D b b)
    (hclosure : ∀ f g d e l, L.node (.lambda f) (.lambda g) → L.env d e →
      D (.closure f d.capture l) (.closure g e.capture l))
    (hcallees : ∀ a b, D a b → b = a ∨ (beside L D J).Callees a b) : (beside L D J).Lawful where
  link linked := by
    cases linked with
    | true => exact hL
    | false => exact Link.same_lawful
  foreign h linked := by
    cases linked with
    | true => exact hJ _ h
    | false => rfl
  closure {linked f g d e} hf he l := by
    cases linked with
    | true => exact hclosure f g d e l hf he
    | false =>
      obtain rfl : f = g := Node.lambda.inj hf
      obtain rfl : d = e := he
      exact hD _
  callees {a b} h := by
    rcases hcallees a b h with rfl | h
    · cases b with
      | closure f c l => exact .closure false rfl rfl l
      | host id => exact .host id
    · exact h

end Coupling

end ExprTree
