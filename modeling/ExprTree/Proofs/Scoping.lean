import ExprTree.Proofs.ControlNodes
import ExprTree.Proofs.Environment
import ExprTree.Proofs.HostCode

/-! What a run does with names. One induction serves the balance of frames, the targets of jumps and
the binding of parameters: which of them is promised is a parameter of it. -/
namespace ExprTree

/-- The frames bind what they did, and the same exceptions are being handled. -/
structure State.Balanced (s t : State) : Prop where
  shape : t.env.shape = s.env.shape
  handling : t.handling = s.handling

theorem State.Balanced.refl (s : State) : s.Balanced s := ⟨rfl, rfl⟩

theorem State.Balanced.trans {s t u : State} (h : s.Balanced t)
    (h' : t.Balanced u) : s.Balanced u :=
  ⟨h'.shape.trans h.shape, h'.handling.trans h.handling⟩

/-- No jump leaves a lambda of the tree: the body of each is without free labels. -/
def Node.Confined (n : Node) : Prop :=
  n.All fun m => ∀ f, m = .lambda f → ∀ i, .label i ∉ f.body.free

/-- What is promised of names. -/
structure Scoping where
  /-- Jumps go to free labels. -/
  jumps : Prop
  /-- No jump leaves a lambda. -/
  resolved : Prop
  /-- Parameters are found where they are used. -/
  bound : Prop
  /-- Closures that come from elsewhere and keep the promise by themselves. -/
  outside : Lambda → Slots → Option Nat → Prop

namespace Scoping

variable (R : Scoping)

/-- The signals that may leave a node whose free names are among `σ`. -/
def Allows (σ : Symbol → Prop) : Signal → Prop
  | .jump l _ => R.jumps → σ l.symbol
  | .fatal (.unresolvedGoto _) => ¬R.resolved
  | .fatal (.unboundParameter _) => ¬R.bound
  | _ => True

/-- The signals that may leave a lambda or a handle: there is no label outside. -/
def Foreign : Signal → Prop := R.Allows fun _ => False

/-- The lambda uses captured values only. -/
structure Closed (f : Lambda) (captures : Slots) : Prop where
  bound : R.bound → ∀ i, .param i ∈ f.free → i ∈ captures.ids
  confined : R.resolved → (Node.lambda f).Confined

/-- Every closure in the store keeps the promise, by its form or by assumption. -/
def StoreOk (s : Store) : Prop :=
  ∀ f captures limit, .closure f captures limit ∈ s.delegates →
    R.Closed f captures ∨ R.outside f captures limit

structure Inv (σ : Symbol → Prop) (s : State) : Prop where
  bound : R.bound → ∀ i, σ (.param i) → s.env.Binds i
  store : R.StoreOk s.store

def contract (σ : Symbol → Prop) : Contract where
  inv := R.Inv σ
  step := State.Balanced
  refl := State.Balanced.refl
  trans := State.Balanced.trans

/-- The names among `σ` are enough for the node. -/
structure Good (σ : Symbol → Prop) (n : Node) : Prop where
  free : ∀ x ∈ n.free, σ x
  confined : R.resolved → n.Confined

variable {R} {σ τ : Symbol → Prop}

theorem foreign_allows {x : Signal} (h : R.Foreign x) : R.Allows σ x := by
  rcases x with e | v | ⟨l, v⟩
  · cases e <;> exact h
  · trivial
  · exact fun hj => (h hj).elim

theorem ordinary : Ordinary (R.Allows σ) where
  thrown _ := trivial
  fatal {e} he := by cases e <;> trivial

theorem storeOk_of_delegates (s t : Store) (ht : t.delegates = s.delegates) (hs : R.StoreOk s) :
    R.StoreOk t := by
  intro f c l h
  exact hs f c l (ht ▸ h)

theorem plain : (R.contract σ).Plain (R.Allows σ) where
  toOrdinary := ordinary
  frame {s t} hs he hh hd := by
    refine ⟨⟨fun hb i hi => ?_, storeOk_of_delegates s.store t.store hd hs.store⟩, ⟨?_, hh⟩⟩
    · rw [he]
      exact hs.bound hb i hi
    · rw [he]

/-! ### Slots and frames -/

theorem binds_of_balanced {s t : State} {i : Nat} (h : s.Balanced t) (hi : s.env.Binds i) :
    t.env.Binds i := by
  unfold Environment.Binds at *
  rw [h.shape]
  exact hi

open Evaluator Contract

theorem lookup_keeps {p : Param} (hp : σ p.symbol) :
    (R.contract σ).Keeps (R.Allows σ) (lookup p) := by
  intro s hs
  refine Eval.ifEnds_lookup (fun v _ => ⟨hs, State.Balanced.refl s, trivial⟩) fun hl => ?_
  refine ⟨hs, State.Balanced.refl s, fun hb => ?_⟩
  obtain ⟨v, hv⟩ := Environment.lookup_of_binds (hs.bound hb p.id hp)
  simp [hl] at hv

theorem assign_keeps {p : Param} {v : Value} (hp : σ p.symbol) :
    (R.contract σ).Keeps (R.Allows σ) (assign p v) := by
  intro s hs
  refine Eval.ifEnds_assign (fun env ha => ?_) fun ha => ⟨hs, State.Balanced.refl s, fun hb => ?_⟩
  · have hbal : s.Balanced { s with env } := ⟨(Environment.assign?_spec ha).1, rfl⟩
    exact ⟨⟨fun hb i hi => binds_of_balanced hbal (hs.bound hb i hi), hs.store⟩, hbal, trivial⟩
  · obtain ⟨d, hd⟩ := Environment.assign?_of_binds (v := v) (hs.bound hb p.id hp)
    simp [ha] at hd

variable {α : Type} {m : Eval α} {P : Signal → Prop}

/-- A frame adds its names, and nothing of it is left when it is popped. -/
theorem withBindings_keeps {bs : Slots} (hm : (R.contract τ).Keeps P m)
    (hσ : R.bound → ∀ i, τ (.param i) → i ∈ bs.ids ∨ σ (.param i)) :
    (R.contract σ).Keeps P (m.withBindings bs) := by
  intro s hs
  have hin : R.Inv τ { s with env := s.env.push.defineAll bs } :=
    ⟨fun hb i hi => Environment.binds_push_defineAll.mpr ((hσ hb i hi).imp id (hs.bound hb i)),
      hs.store⟩
  refine Eval.ifEnds_around.mpr (Eval.IfEnds.mono (hm _ hin) ?_)
  rintro r t ⟨ht, hb, hr⟩
  have hbal : s.Balanced { t with env := t.env.pop } :=
    ⟨Environment.shape_pop hb.shape, hb.handling⟩
  refine ⟨⟨fun hb i hi => binds_of_balanced hbal (hs.bound hb i hi), ht.store⟩, hbal, ?_⟩
  cases r <;> exact hr

theorem withHandling_keeps {x : Value} (hm : (R.contract σ).Keeps P m) :
    (R.contract σ).Keeps P (m.withHandling x) := by
  intro s hs
  have hin : R.Inv σ { s with handling := x :: s.handling } := ⟨hs.bound, hs.store⟩
  refine Eval.ifEnds_around.mpr (Eval.IfEnds.mono (hm _ hin) ?_)
  rintro r t ⟨ht, hb, hr⟩
  refine ⟨⟨ht.bound, ht.store⟩, ⟨hb.shape, by simp [hb.handling]⟩, ?_⟩
  cases r <;> exact hr

/-! ### Calls -/

variable {ev : Evaluator}

/-- Every call of the closure keeps the promise. -/
abbrev Vouched (R : Scoping) (ev : Evaluator) : Lambda → Slots → Option Nat → Prop :=
  ev.Vouches R.StoreOk R.Foreign

/-- A call has frames and handlers of its own. -/
theorem vouched_keeps {f : Lambda} {captures : Slots} {limit : Option Nat} {args : List Value}
    (h : R.Vouched ev f captures limit) :
    (R.contract σ).Keeps R.Foreign (ev.callLambda f captures limit args) := by
  intro s hs
  have hc := Eval.ifEnds_isolated.mp (h args s hs.store)
  refine Eval.ifEnds_isolated.mpr (Eval.IfEnds.mono hc ?_)
  rintro r t ⟨ht, hx⟩
  refine ⟨⟨hs.bound, ht⟩, ⟨rfl, rfl⟩, ?_⟩
  cases r with
  | ok v => trivial
  | error x => exact hx x rfl

/-- The evaluation of every node keeps the promise that its names allow. -/
def Evaluates (R : Scoping) (ev : Evaluator) : Prop :=
  ∀ σ n, R.Good σ n → (R.contract σ).Keeps (R.Allows σ) (ev.eval n)

/-- No jump leaves a lambda that confines its labels, and what it captured or was given is all it
uses. -/
theorem Closed.vouched (he : R.Evaluates ev) (hj : R.resolved → R.jumps) {f : Lambda}
    {captures : Slots} {limit : Option Nat} (hf : R.Closed f captures) :
    R.Vouched ev f captures limit := by
  intro args s hs
  refine Eval.ifEnds_isolated.mpr ?_
  let κ : Symbol → Prop := fun x => ∃ i, x = .param i ∧ i ∈ captures.ids
  have hstart : R.Inv κ ⟨.ofCaptures captures, [], 0, limit, s.store⟩ := by
    refine ⟨fun _ i hi => ?_, hs⟩
    obtain ⟨j, hj, hi⟩ := hi
    cases hj
    exact Environment.binds_ofCaptures.mpr hi
  unfold runLambda
  split
  · exact ⟨hs, by rintro _ ⟨⟩; trivial⟩
  rename_i hlen
  refine Eval.ifEnds_modify_bind.mpr ?_
  suffices hk : (R.contract κ).Keeps R.Foreign _ by
    refine Eval.IfEnds.mono (hk _ hstart) ?_
    rintro r t ⟨ht, _, hr⟩
    refine ⟨ht.store, ?_⟩
    rintro x rfl
    exact hr
  have hids : Slots.ids ((f.params.map Param.id).zip args) = f.params.map Param.id := by
    refine List.map_fst_zip ?_
    simpa using Nat.le_of_eq (Decidable.not_not.mp hlen)
  have hbody := he (· ∈ f.body.free) f.body
    ⟨fun _ hx => hx, fun hr => (hf.confined hr).child (by simp [Node.children])⟩
  refine (withBindings_keeps hbody fun hb i hi => ?_).outcome_bind (fun v => keeps_pure) ?_
  · rw [hids]
    by_cases hp : i ∈ f.params.map Param.id
    · exact Or.inl hp
    · exact Or.inr ⟨i, rfl, hf.bound hb i (Lambda.mem_free.mpr ⟨hi, i, rfl, hp⟩)⟩
  · rintro (e | x | ⟨l, v⟩) hp
    · exact ensures_signal (by cases e <;> exact hp)
    · exact ensures_signal trivial
    · refine ensures_signal fun hr => ?_
      exact (hf.confined hr).here f rfl l.id (hp (hj hr))

/-! ### Host code and delegates -/

theorem storeOk_empty : R.StoreOk {} := fun _ _ _ h => absurd h (Array.not_mem_empty _)

theorem runRoutine_keeps {call : Value → List Value → Eval Value}
    (hc : ∀ f args, (R.contract σ).Keeps R.Foreign (call f args)) {r : Routine}
    (hr : r.Keeps R.StoreOk R.Foreign) : (R.contract σ).Keeps R.Foreign (runRoutine call r) := by
  induction r with
  | finish result store =>
    intro s hs
    refine Eval.ifEnds_finish.mpr ⟨⟨hs.bound, hr.1⟩, ⟨rfl, rfl⟩, ?_⟩
    cases result with
    | ok v => trivial
    | error x => exact hr.2 x rfl
  | invoke f args store resume ih =>
    intro s hs
    obtain ⟨hst, hres⟩ := hr
    have hin : R.Inv σ { s with store } := ⟨hs.bound, hst⟩
    refine Eval.ifEnds_invoke.mpr (Eval.IfEnds.mono (hc f args _ hin) ?_)
    rintro r t ⟨ht, hb, hx⟩
    have hx' : ∀ x, r = .error x → R.Foreign x := by
      rintro x rfl
      exact hx
    have hk := ih r t.store (hres r t.store ht.store hx') { t with store := {} }
      ⟨ht.bound, storeOk_empty⟩
    refine Eval.IfEnds.mono hk ?_
    rintro r' u ⟨hu, hb', hx⟩
    refine ⟨hu, ⟨hb'.shape.trans hb.shape, hb'.handling.trans hb.handling⟩, hx⟩

theorem onStore_keeps {call : Value → List Value → Eval Value} {run : Store → Routine}
    (hc : ∀ f args, (R.contract σ).Keeps R.Foreign (call f args))
    (hr : Routine.Trusted R.StoreOk R.Foreign run) :
    (R.contract σ).Keeps R.Foreign (onStore call run) := by
  intro s hs
  have hk :=
    runRoutine_keeps hc (hr s.store hs.store) { s with store := {} } ⟨hs.bound, storeOk_empty⟩
  refine Eval.ifEnds_onStore.mpr (Eval.IfEnds.mono hk ?_)
  rintro r t ⟨ht, hb, hx⟩
  exact ⟨ht, ⟨hb.shape, hb.handling⟩, hx⟩

/-- What is assumed of everything that the tree does not show: host code, and closures from
elsewhere. -/
structure Assumed (R : Scoping) (ev : Evaluator) : Prop where
  host : ev.host.Keeps R.StoreOk R.Foreign
  outside {f : Lambda} {captures : Slots} {limit : Option Nat} :
    R.outside f captures limit → R.Vouched ev f captures limit
  jumps : R.resolved → R.jumps

variable (he : R.Evaluates ev) (ha : R.Assumed ev)

include he ha

/-- What stands at an address of the store is called, or its host code run. -/
theorem dispatch_keeps {addr : Nat} {args : List Value} {hostCode : Nat → Eval Value}
    (hh : ∀ id, (R.contract σ).Keeps R.Foreign (hostCode id)) :
    (R.contract σ).Keeps R.Foreign (Eval.store >>= fun st => match st.delegates[addr]? with
      | some (.closure f captures limit) => ev.callLambda f captures limit args
      | some (.host id) => hostCode id
      | none => Eval.endless) := by
  intro s hs
  change (R.contract σ).Holds _ _ (match s.store.delegates[addr]? with
    | some (.closure f captures limit) => ev.callLambda f captures limit args
    | some (.host id) => hostCode id
    | none => Eval.endless) s
  split
  · rename_i f captures limit h
    rcases hs.store f captures limit (Array.mem_of_getElem? h) with hc | ho
    · exact vouched_keeps (hc.vouched he ha.jumps) s hs
    · exact vouched_keeps (ha.outside ho) s hs
  · exact hh _ s hs
  · trivial

theorem callDelegate_keeps {n : Nat} {f : Value} {args : List Value} :
    (R.contract σ).Keeps R.Foreign (callDelegate ev n f args) := by
  have hp : (R.contract σ).Plain R.Foreign := ⟨ordinary, plain.frame⟩
  induction n generalizing f args with
  | zero =>
    cases f with
    | delegate sig addr =>
      rw [callDelegate]
      exact keeps_ite (ensures_signal (hp.fatal rfl)) (dispatch_keeps he ha fun _ =>
        ensures_endless)
    | null => exact hp.throw
    | _ => exact hp.fault (by rintro _ ⟨⟩; rfl)
  | succ n ih =>
    cases f with
    | delegate sig addr =>
      rw [callDelegate]
      refine keeps_ite (ensures_signal (hp.fatal rfl)) (dispatch_keeps he ha fun id => ?_)
      exact onStore_keeps (fun _ _ => ih) (ha.host _ (.delegate id args))
    | null => exact hp.throw
    | _ => exact hp.fault (by rintro _ ⟨⟩; rfl)

theorem handle_keeps (c : HandleCall) :
    (R.contract σ).Keeps (R.Allows σ) (ev.onHost (c.routine ev.host)) :=
  (onStore_keeps (fun _ _ => callDelegate_keeps he ha)
    (ha.host.routine (fun s t _ => storeOk_of_delegates s t) ordinary c)).mono
      (fun _ => foreign_allows) fun _ _ => trivial

theorem handlesKeep : ev.HandlesKeep (R.contract σ) (R.Allows σ) where
  method m receiver args := handle_keeps he ha (.method m receiver args)
  construct c args := handle_keeps he ha (.construct c args)
  get m target := handle_keeps he ha (.get m target)
  set m target v := (handle_keeps he ha (.set m target v)).bind fun _ => keeps_pure
  getItem i target args := handle_keeps he ha (.getItem i target args)
  setItem i target args v :=
    (handle_keeps he ha (.setItem i target args v)).bind fun _ => keeps_pure
  invoke _ _ := (callDelegate_keeps he ha).mono (fun _ => foreign_allows) fun _ _ => trivial

/-! ### Nodes -/

omit he ha in
/-- A lambda of the tree uses what is visible where it stands. -/
theorem closed_capture {f : Lambda} {s : State} (hf : R.Good σ (.lambda f)) (hs : R.Inv σ s) :
    R.Closed f s.env.capture where
  bound hb i hi :=
    Environment.mem_ids_capture.mpr (hs.bound hb i (hf.free _ (by simpa [Node.free] using hi)))
  confined := hf.confined

omit he ha in
theorem closure_keeps {f : Lambda} (hf : R.Good σ (.lambda f)) :
    (R.contract σ).Keeps (R.Allows σ) (closure f) := by
  intro s hs
  refine ⟨⟨hs.bound, ?_⟩, ⟨rfl, rfl⟩, trivial⟩
  intro g c l h
  rcases Array.mem_push.mp h with h | h
  · exact hs.store g c l h
  · cases h
    exact Or.inl (closed_capture hf hs)

theorem convertBy_keeps {f : Lambda} {v : Value} (hf : R.Good σ (.lambda f)) :
    (R.contract σ).Keeps (R.Allows σ) (ev.convertBy f v) := by
  intro s hs
  change (R.contract σ).Holds _ _ (ev.callLambda f s.env.capture s.limit [v]) s
  have hv : R.Vouched ev f s.env.capture s.limit := (closed_capture hf hs).vouched he ha.jumps
  exact Holds.mono (vouched_keeps hv s hs) (fun _ _ => foreign_allows) fun _ _ _ _ _ => trivial

theorem admits : ev.Admits (R.contract σ) (R.Allows σ) (R.Good σ) where
  child hn ho hc :=
    ⟨fun x hx => hn.free x (mem_free_of_child ho hc hx), fun hr => (hn.confined hr).child hc⟩
  eval hn := he σ _ hn
  slot hp := ⟨lookup_keeps (hp.free _ (by simp [Node.free])), fun _ =>
    assign_keeps (hp.free _ (by simp [Node.free]))⟩
  jump _ hn _ := hn.free _ (by simp [Node.free])
  convert _ hf := convertBy_keeps he ha hf

omit he ha in
/-- A contract asks for parameters only, whatever labels there are. -/
theorem keeps_of_params (hm : (R.contract τ).Keeps P m)
    (hσ : R.bound → ∀ i, τ (.param i) → σ (.param i)) : (R.contract σ).Keeps P m := by
  intro s hs
  refine Eval.IfEnds.mono (hm s ⟨fun hb i hi => hs.bound hb i (hσ hb i hi), hs.store⟩) ?_
  rintro r t ⟨ht, hb, hr⟩
  refine ⟨⟨fun hbd i hi => binds_of_balanced hb (hs.bound hbd i hi), ht.store⟩, hb, ?_⟩
  cases r <;> exact hr

/-- The names of `σ` and those that a node binds over a child. -/
def Under (σ : Symbol → Prop) (bs : List Symbol) (x : Symbol) : Prop := σ x ∨ x ∈ bs

omit he ha in
theorem good_under {n c : Node} {bs : List Symbol} (hn : R.Good σ n) (hc : c ∈ n.children)
    (hfree : ∀ x ∈ c.free, x ∉ bs → x ∈ n.free) : R.Good (Under σ bs) c := by
  refine ⟨fun x hx => ?_, fun hr => (hn.confined hr).child hc⟩
  by_cases hb : x ∈ bs
  · exact Or.inr hb
  · exact Or.inl (hn.free x (hfree x hx hb))

omit he ha in
/-- What is caught of the jumps to bound labels does not leave. -/
theorem allows_of_caught {bs : List Symbol} {x : Signal} (hx : R.Allows (Under σ bs) x)
    (hl : ∀ l v, x = .jump l v → l.symbol ∉ bs) : R.Allows σ x := by
  rcases x with e | v | ⟨l, v⟩
  · cases e <;> exact hx
  · trivial
  · exact fun hj => (hx hj).resolve_right (hl l v rfl)

omit ha in
theorem block_keeps {id : Nat} {vars : List Param} {body : List Node} {t : Ty}
    (hn : R.Good σ (.block id vars body t)) :
    (R.contract σ).Keeps (R.Allows σ) (ev.evalBlock vars body t) := by
  let bs := vars.map Param.symbol ++ labelsOf body
  have hbody : ∀ n ∈ body, (R.contract (Under σ bs)).Keeps (R.Allows (Under σ bs)) (ev.eval n) := by
    refine fun n hm => he _ n (good_under hn (by simpa [Node.children] using hm) fun x hx hb => ?_)
    simp only [Node.free, List.mem_filter, mem_freeAll, decide_eq_true_eq]
    exact ⟨⟨n, hm, hx⟩, hb⟩
  have hrun :
      (R.contract (Under σ bs)).Keeps (R.Allows σ) (ev.runSequence body ev.depth body .void) := by
    refine runSequence_keeps hbody (fun x hx hl => allows_of_caught hx ?_) fun n hm => hm
    intro l v hj
    simp only [bs, List.mem_append, List.mem_map, not_or]
    refine ⟨?_, hl l v hj⟩
    rintro ⟨p, _, hp⟩
    cases hp
  have hparam (i : Nat) (hi : Under σ bs (.param i)) : i ∈ vars.map Param.id ∨ σ (.param i) := by
    rcases hi with hi | hi
    · exact Or.inr hi
    · rcases List.mem_append.mp hi with hi | hi
      · obtain ⟨p, hp, h⟩ := List.mem_map.mp hi
        exact Or.inl (List.mem_map.mpr ⟨p, hp, by simpa [Param.symbol] using h⟩)
      · obtain ⟨l, h⟩ := eq_symbol_of_mem_labelsOf hi
        cases h
  unfold evalBlock
  cases vars with
  | nil =>
    refine (keeps_of_params hrun fun _ i hi => ?_).bind fun _ => keeps_pure
    exact (hparam i hi).resolve_left (by simp)
  | cons p ps =>
    refine (withBindings_keeps hrun fun _ i hi => ?_).bind fun _ => keeps_pure
    have hids :
        Slots.ids ((p :: ps).map fun p => (p.id, Value.zero p.ty)) = (p :: ps).map Param.id := by
      simp [Slots.ids, Function.comp_def]
    rw [hids]
    exact hparam i hi

omit ha in
theorem loop_keeps {id k : Nat} {body : Node} {b c : Option Label}
    (hn : R.Good σ (.loop id body b c)) :
    (R.contract σ).Keeps (R.Allows σ) (ev.runLoop body b c k) := by
  let bs := (b.toList ++ c.toList).map Label.symbol
  have hbody := he (Under σ bs) body (good_under hn (by simp [Node.children]) fun x hx hb => by
    simp only [Node.free, List.mem_filter, decide_eq_true_eq]
    exact ⟨hx, hb⟩)
  refine runLoop_keeps (keeps_of_params hbody fun _ i hi => hi.resolve_right ?_) fun x hx hl =>
    allows_of_caught hx hl
  simp [bs, Label.symbol]

omit ha in
theorem label_keeps {id : Nat} {l : Label} {x : Option Node} (hn : R.Good σ (.label id l x)) :
    (R.contract σ).Keeps (R.Allows σ) (ev.evalLabel l x) := by
  have hbody : ∀ n ∈ x, (R.contract σ).Keeps (R.Allows (Under σ [l.symbol])) (ev.eval n) := by
    intro n hm
    have hg : R.Good (Under σ [l.symbol]) n := by
      refine good_under hn (by simpa [Node.children] using hm) fun x hx hb => ?_
      simp only [Node.free, List.mem_filter, mem_freeOption, decide_eq_true_eq]
      exact ⟨⟨n, hm, hx⟩, by simpa using hb⟩
    exact keeps_of_params (he _ n hg) fun _ i hi => hi.resolve_right (by simp [Label.symbol])
  exact evalLabel_keeps hbody fun y hy hl => allows_of_caught hy fun k v hj => by
    simpa using hl k v hj

omit he ha in
theorem mem_ids_bindings {h : CatchClause} {x : Value} {i : Nat}
    (hi : .param i ∈ h.var.toList.map Param.symbol) : i ∈ (bindings h x).ids := by
  unfold bindings
  cases hv : h.var with
  | none => simp [hv] at hi
  | some p => simpa [hv, Slots.ids, Param.symbol] using hi

omit ha in
/-- The variable of a clause is bound in its filter and in its body. -/
theorem clause_keeps {h : CatchClause}
    (hn : ∀ n ∈ h.nodes, R.Good (Under σ (h.var.toList.map Param.symbol)) n) :
    ev.ClauseKeeps (R.contract σ) (R.Allows σ) h := by
  have hk (x : Value) (n : Node) (hm : n ∈ h.nodes) :
      (R.contract σ).Keeps (R.Allows σ) ((ev.eval n).withBindings (bindings h x)) := by
    refine withBindings_keeps ((he _ n (hn n hm)).mono (fun y hy => ?_) fun _ _ => trivial)
      fun _ i hi => ?_
    · exact allows_of_caught hy (by simp [Label.symbol, Param.symbol])
    · exact hi.symm.imp mem_ids_bindings fun hi => hi
  exact {
    filter := fun x f hm => hk x f (List.mem_append_left _ (by simpa using hm))
    body := fun x => withHandling_keeps (hk x h.body (List.mem_append_right _ (by simp))) }

omit ha in
theorem guarded_keeps {id : Nat} {body : Node} {handlers : List CatchClause}
    {fin fault : Option Node} (hn : R.Good σ (.guarded id body handlers fin fault)) :
    (R.contract σ).Keeps (R.Allows σ) (ev.evalGuarded body handlers fin fault) := by
  have hpart (n : Node) (hm : n ∈ (Node.guarded id body handlers fin fault).children)
      (hf : ∀ x ∈ n.free, x ∈ (Node.guarded id body handlers fin fault).free) :
      (R.contract σ).Keeps (R.Allows σ) (ev.eval n) :=
    he σ n ⟨fun x hx => hn.free x (hf x hx), fun hr => (hn.confined hr).child hm⟩
  refine evalGuarded_keeps (fun _ => trivial) ?_ (fun h hh => clause_keeps he fun n hm => ?_)
    (fun n hm => ?_)
    fun n hm => ?_
  · exact hpart body (by simp [Node.children]) fun x hx => by simp [Node.free, hx]
  · refine good_under hn ?_ fun x hx hb => ?_
    · simp only [Node.children, List.mem_cons, List.mem_append, List.mem_flatMap]
      exact Or.inr (Or.inl ⟨h, hh, hm⟩)
    · simp only [Node.free, List.mem_append, mem_freeClauses]
      exact Or.inl (Or.inl (Or.inr ⟨h, hh, ⟨n, hm, hx⟩, hb⟩))
  · exact hpart n (by simp_all [Node.children]) fun x hx => by simp_all [Node.free]
  · exact hpart n (by simp_all [Node.children]) fun x hx => by simp_all [Node.free]

theorem node_keeps {n : Node} (hn : R.Good σ n) :
    (R.contract σ).Keeps (R.Allows σ) (ev.node n) := by
  by_cases ho : n.isOpen
  · exact Evaluator.node_keeps plain (handlesKeep he ha) (admits he ha) hn ho
  · cases n with
    | lambda f => exact closure_keeps hn
    | block id vars body t => exact block_keeps he hn
    | loop id body b c => exact loop_keeps he hn
    | label id l x => exact label_keeps he hn
    | guarded id body handlers fin fault => exact guarded_keeps he hn
    | _ => exact absurd rfl ho

omit he ha in
/-- Evaluation keeps what is promised of names, in every node that has the names it needs. -/
theorem eval_keeps {host : Host} {n : Nat} (ha : ∀ n, R.Assumed (evaluator host n)) :
    R.Evaluates (evaluator host n) := by
  induction n with
  | zero => exact fun σ node _ => ensures_endless
  | succ n ih =>
    intro σ node hn
    exact plain.tick.bind fun _ => node_keeps ih (ha n) hn

end Scoping

end ExprTree
