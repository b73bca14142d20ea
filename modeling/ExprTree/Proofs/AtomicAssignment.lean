import ExprTree.Host.Scripted
import ExprTree.Proofs.Assignments
import ExprTree.Proofs.Taken

/-! The order of what an assignment node does: it evaluates the operands of its target, comes to
what it stores, and writes once at the end or not at all. -/
namespace ExprTree

/-! ### What is stored -/

namespace Plan

variable {α : Type} {n : Node} {ns : List Node}

theorem visits_fault {x : Fault} : (fault x : Plan α).Visits ns := by
  cases x with
  | fatal e => exact .signal
  | raise c m => exact .raise fun _ => rfl
  | endless => exact .endless

theorem visits_ofExcept {r : Except Fault α} : (ofExcept r).Visits [] := by
  cases r with
  | ok a => exact .pure
  | error x => exact visits_fault

theorem visits_indexed {i : Indexer} {v : Value} : (indexed i v).Visits [] := by
  unfold indexed
  split
  · exact visits_fault
  · exact .pure

theorem visits_resolve {vs : List Value} : (resolve n vs).Visits [] := by
  unfold resolve
  split
  · exact .pure
  · split
    · exact visits_fault
    · exact .pure
  · exact .pure
  · split
    · exact visits_indexed.bind fun _ => .pure
    · exact Visits.bind (.look fun _ => visits_ofExcept) fun _ => .pure
    · exact .signal
  · exact .signal

theorem visits_read {pl : Place} : (read pl).Visits [] := by
  cases pl with
  | slot p =>
    refine .look fun w => ?_
    split
    · exact .pure
    · exact .signal
  | member target m => exact .other rfl rfl fun _ => .pure
  | element addr position => exact .look fun w => visits_ofExcept
  | item target i args => exact .other rfl rfl fun _ => .pure

theorem visits_applyBinary {op : NodeKind} {m : Option Method} {a b : Value} :
    (applyBinary op m a b).Visits [] := by
  cases m with
  | some m => exact .other rfl rfl fun _ => .pure
  | none => exact .look fun w => visits_ofExcept

theorem visits_applyUnary {op : NodeKind} {m : Option Method} {v : Value} :
    (applyUnary op m v).Visits [] := by
  cases m with
  | some m => exact .other rfl rfl fun _ => .pure
  | none => exact .look fun w => visits_ofExcept

theorem visits_converted {m : Option Method} {conversion : Option Lambda} {v : Value} :
    (converted m conversion v).Visits [] := by
  unfold converted
  split
  · exact .other rfl rfl fun _ => .pure
  · exact .pure

theorem visits_produce {a : Assignment} {pl : Place} : (produce a pl).Visits a.right?.toList := by
  cases a with
  | plain right => exact (Visits.eval fun v => .pure).bind fun v => .pure
  | compound op right m conversion =>
    refine visits_read.bind fun a => ?_
    have hright : (eval right).Visits [right] := .eval fun _ => .pure
    exact hright.bind fun b => visits_applyBinary.bind fun v => visits_converted.bind fun v => .pure
  | step op post m => exact visits_read.bind fun old => visits_applyUnary.bind fun new => .pure

end Plan

/-! ### Places -/

namespace Place

/-- The action that writes the place. -/
def writing : Place → Value → Action
  | .slot p, v => .assign p v
  | .member target m, v => .use (.set m target v)
  | .element addr position, v => .element addr position v
  | .item target i args, v => .use (.setItem i target args v)

theorem writing_writes {pl : Place} {v : Value} : (pl.writing v).writes = true := by
  cases pl <;> rfl

end Place

namespace Plan

variable {α : Type} {R : Recorder Event} {s t u z : State} {pl : Place} {v w : Value}
  {vs : List Value} {r : Except Signal Value} {p : Param} {a : Assignment} {target object : Node}
  {args : List Node} {id : Nat} {ty : Ty}

/-- The place is written, or it is an element that is out of range. -/
theorem store_ended (he : (store pl (w, v)).run R.toEvaluator u = .ended r t) :
    (∃ q, (pl.writing w).run R.toEvaluator u = .ended q t ∧ r = q.map (fun _ => v) ∧
        (store pl (w, v)).trace R u = (pl.writing w).trace R u ∧
        ∀ addr position, pl = .element addr position → position < (u.store.arrayItems addr).size) ∨
      ∃ x, r = .error x ∧ u.Raised t ∧ (store pl (w, v)).trace R u = [] := by
  cases pl with
  | slot p =>
    obtain ⟨q, hq, hr, htrace⟩ := act_pure_ended he
    exact .inl ⟨q, hq, hr, htrace, nofun⟩
  | member target m =>
    obtain ⟨q, hq, hr, htrace⟩ := act_pure_ended he
    exact .inl ⟨q, hq, hr, htrace, nofun⟩
  | item target i args =>
    obtain ⟨q, hq, hr, htrace⟩ := act_pure_ended he
    exact .inl ⟨q, hq, hr, htrace, nofun⟩
  | element addr position =>
    let next (length : Nat) : Plan Value :=
      if position < length then act (.element addr position w) fun _ => .pure v
      else fault (.indexOutOfRange position length) >>= fun _ : Unit => .pure v
    have hstore :
        store (.element addr position) (w, v) = look fun view =>
          next (view.store.arrayItems addr).size := by
      refine congrArg look (funext fun view => ?_)
      dsimp only [next]
      split <;> rfl
    have hrun : (store (.element addr position) (w, v)).run R.toEvaluator u =
        (next (u.store.arrayItems addr).size).run R.toEvaluator u := by
      rw [hstore, run_look]
      rfl
    have htrace : (store (.element addr position) (w, v)).trace R u =
        (next (u.store.arrayItems addr).size).trace R u := by
      rw [hstore, Plan.trace]
      rfl
    rw [hrun] at he
    rw [htrace]
    dsimp only [next] at he ⊢
    split at he
    · rename_i hlt
      obtain ⟨q, hq, hr, ht⟩ := act_pure_ended he
      refine .inl ⟨q, hq, hr, by rw [if_pos hlt, ht]; rfl, fun a i h => ?_⟩
      cases h
      exact hlt
    · rename_i hle
      rw [if_neg hle]
      exact .inr (fault_ended he)

theorem resolve_slot (he : (resolve (.param p) vs).run R.toEvaluator s = .ended (.ok pl) z) :
    pl = .slot p ∧ z = s := by
  obtain ⟨hpl, rfl⟩ := pure_ended he
  exact ⟨Except.ok.inj hpl, rfl⟩

theorem resolve_element
    (he : (resolve (.index id object none args ty) vs).run R.toEvaluator s = .ended (.ok pl) z) :
    (∃ array index addr position, vs = [array, index] ∧ pl = .element addr position ∧
      Value.element s.store array index = .ok (addr, position)) ∧ z = s := by
  match vs, he with
  | [array, index], he =>
    change (element array index >>= fun x =>
      (return .element x.1 x.2 : Plan Place)).run R.toEvaluator s = _ at he
    rcases bind_ended he with ⟨x, hx, -⟩ | ⟨⟨addr, position⟩, u, helement, hpure, -⟩
    · cases hx
    · obtain ⟨hpl, rfl⟩ := pure_ended hpure
      obtain ⟨helement, rfl⟩ := ofExcept_ok helement
      have helement : Value.element z.store.bare array index = .ok (addr, position) := helement
      rw [Value.element_bare] at helement
      exact ⟨⟨array, index, addr, position, rfl, Except.ok.inj hpl, helement⟩, rfl⟩
  | [], he => cases he
  | [_], he => cases he
  | _ :: _ :: _ :: _, he => cases he

theorem read_slot (he : (read (.slot p)).run R.toEvaluator s = .ended (.ok v) z) :
    s.env.lookup p.id = some v ∧ z = s := by
  rw [read, lookup, run_look, State.view] at he
  cases h : s.env.lookup p.id with
  | none =>
    simp only [h] at he
    cases he
  | some w =>
    simp only [h] at he
    obtain ⟨hv, rfl⟩ := pure_ended he
    exact ⟨congrArg some (Except.ok.inj hv).symm, rfl⟩

theorem read_element {addr position : Nat}
    (he : (read (.element addr position)).run R.toEvaluator s = .ended (.ok v) z) :
    (s.store.arrayItems addr)[position]? = some v ∧ z = s := by
  obtain ⟨hread, rfl⟩ := ofExcept_ok he
  refine ⟨?_, rfl⟩
  have hread : z.store.readElement addr position = .ok v := hread
  rw [Store.readElement] at hread
  split at hread
  · rename_i h
    exact h.trans (congrArg some (Except.ok.inj hread))
  · cases hread

end Plan

/-- What is stored is the value of the node. Only the post forms have the value held before, and
store what the operator makes of it. -/
def Assignment.Results (ev : Evaluator) (held : Option Value) (z u : State) (v w : Value) :
    Assignment → Prop
  | .step op true m => held = some v ∧ ev.applyUnary (.unary (.arith op)) m v z = .value w u
  | _ => w = v

namespace Plan

variable {R : Recorder Event} {u z : State} {pl : Place} {v w : Value} {a : Assignment}
  {n target : Node}

theorem produce_results {held : Option Value}
    (he : (produce a pl).run R.toEvaluator z = .ended (.ok (w, v)) u)
    (hread : ∀ old y, (read pl).run R.toEvaluator z = .ended (.ok old) y →
      held = some old ∧ y = z) : a.Results R.toEvaluator held z u v w := by
  cases a with
  | plain right =>
    rcases bind_ended he with ⟨x, hx, -⟩ | ⟨b, y, -, hpure, -⟩
    · cases hx
    · obtain ⟨h, -⟩ := pure_ended hpure
      cases h
      rfl
  | compound op right m conversion =>
    simp only [produce, ← bind_assoc] at he
    rcases bind_ended he with ⟨x, hx, -⟩ | ⟨b, y, -, hpure, -⟩
    · cases hx
    · obtain ⟨h, -⟩ := pure_ended hpure
      cases h
      rfl
  | step op post m =>
    rcases bind_ended he with ⟨x, hx, -⟩ | ⟨old, y, hold, he, -⟩
    · cases hx
    rcases bind_ended he with ⟨x, hx, -⟩ | ⟨new, y', hnew, hpure, -⟩
    · cases hx
    obtain ⟨h, rfl⟩ := pure_ended hpure
    cases h
    obtain ⟨hheld, rfl⟩ := hread _ _ hold
    cases post with
    | false => rfl
    | true =>
      rw [run_applyUnary] at hnew
      exact ⟨hheld, hnew⟩

/-- The place of the target for the values of its operands, and what is stored there. -/
def prepare (target : Node) (a : Assignment) (vs : List Value) : Plan (Place × Value × Value) := do
  let pl ← resolve target vs
  return (pl, ← produce a pl)

theorem assignment_prepared (h : n.assignment? = some (target, a)) :
    n.plan = evalAll target.operands >>= fun vs => prepare target a vs >>= fun x =>
      store x.1 x.2 := by
  rw [assignment_plan h, place_eq]
  simp only [prepare, bind_assoc, pure_bind]

theorem visits_prepare {vs : List Value} : (prepare target a vs).Visits a.right?.toList := by
  have hproduce (pl : Place) :
      (produce a pl >>= fun x => (return (pl, x) : Plan _)).Visits (a.right?.toList ++ []) :=
    visits_produce.bind fun x => .pure
  rw [List.append_nil] at hproduce
  exact visits_resolve.bind hproduce

theorem prepare_ok {vs : List Value}
    (he : (prepare target a vs).run R.toEvaluator z = .ended (.ok (pl, w, v)) u) :
    ∃ y, (resolve target vs).run R.toEvaluator z = .ended (.ok pl) y ∧
      (produce a pl).run R.toEvaluator y = .ended (.ok (w, v)) u := by
  rcases bind_ended he with ⟨x, hx, -⟩ | ⟨pl', y, hresolve, he, -⟩
  · cases hx
  rcases bind_ended he with ⟨x, hx, -⟩ | ⟨wv, u', hproduce, hpure, -⟩
  · cases hx
  obtain ⟨h, rfl⟩ := pure_ended hpure
  cases h
  exact ⟨y, hresolve, hproduce⟩

end Plan

/-- What is done before the write: the operands of the target are evaluated in order and each once,
as long as they have values; then comes all else, with the right operand once. -/
structure Preparation (R : Recorder Event) (target : Node) (a : Assignment) (s z u : State)
    (operands others : List Taken) : Prop where
  first : Chain R.toEvaluator s operands z
  next : Chain R.toEvaluator z others u
  operandsOnce : operands.map Taken.action <+: target.operands.map .eval
  rightOnce : evaluated others <+: a.right?.toList
  unwritten : ∀ k ∈ others, k.action.writes = false
  valued : others ≠ [] →
    operands.length = target.operands.length ∧
    ∃ vs : List Value, operands.map Taken.result = vs.map .ok

/-- What an assignment node does: all that comes before the write, and one write, of the place that
the operands gave, or none and an error. -/
structure SingleWrite (R : Recorder Event) (target : Node) (a : Assignment) (s z u : State)
    (operands others : List Taken) (write : Option Action) (r : Except Signal Value) (t : State)
    (tr : Trace) : Prop extends
    Preparation R target a s z u operands others where
  trace : tr = record R operands ++ record R others ++ (write.map (·.trace R u)).getD []
  written : ∀ b, write = some b → b.writes = true ∧ operands.length = target.operands.length ∧
    evaluated others = a.right?.toList ∧
    (∃ vs pl v y, operands.map Taken.result = vs.map .ok ∧
      (Plan.resolve target vs).run R.toEvaluator z = .ended (.ok pl) y ∧ b = pl.writing v) ∧
    ∃ q, b.run R.toEvaluator u = .ended q t ∧ ((∃ v, r = .ok v) ↔ ∃ v, q = .ok v)
  left : write = none → (∃ x, r = .error x) ∧ u.Raised t

section

variable {R : Recorder Event} {target : Node} {a : Assignment} {s z u t y : State}
  {operands others : List Taken} {vs : List Value} {x : Signal} {tr tr' : Trace}

/-- An operand failed. -/
theorem Preparation.of_operands {r : Except Signal (List Value)}
    (h : Plan.Operands R target.operands s operands r z tr) :
    Preparation R target a s z z operands [] where
  first := h.chain
  next := .nil
  operandsOnce := h.order
  rightOnce := List.nil_prefix
  unwritten := List.forall_mem_nil _
  valued := (absurd rfl ·)

theorem Preparation.of_visited {α : Type} {r : Except Signal α}
    (h : Plan.Operands R target.operands s operands (.ok vs) z tr)
    (h' : Plan.Visited R a.right?.toList z r y tr' others u) :
    Preparation R target a s z u operands others where
  first := h.chain
  next := h'.chain
  operandsOnce := h.order
  rightOnce := h'.order
  unwritten := h'.unwritten
  valued _ := by
    obtain ⟨hlength, hresults⟩ := h.all vs rfl
    exact ⟨hlength, vs, hresults⟩

/-- Nothing is written. -/
theorem Preparation.account (h : Preparation R target a s z u operands others) (hr : u.Raised t) :
    SingleWrite R target a s z u operands others none (.error x) t
      (record R operands ++ record R others) where
  toPreparation := h
  trace := (List.append_nil _).symm
  written := nofun
  left _ := ⟨⟨x, rfl⟩, hr⟩

end

/-- The parameter is set, or on an error all slots are as they were. -/
def SlotWritten (ev : Evaluator) (p : Param) (a : Assignment) (z u : State) (t : State) :
    Except Signal Value → Prop
  | .error _ => u.Raised t ∧ t.env = u.env
  | .ok v => ∃ w, a.Results ev (z.env.lookup p.id) z u v w ∧ u.SlotSet p.id w t

/-- The element is set that the operands named, or on an error all elements are as they were. -/
def ElementWritten (ev : Evaluator) (operands : List Taken) (a : Assignment) (z u : State)
    (t : State) : Except Signal Value → Prop
  | .error _ => u.Raised t ∧ t.store.arrays = u.store.arrays
  | .ok v => ∃ elem index addr position w,
    operands.map Taken.result = [.ok (.array elem addr), .ok index] ∧
    Value.element z.store (.array elem addr) index = .ok (addr, position) ∧
    a.Results ev (z.store.arrayItems addr)[position]? z u v w ∧ u.ElementSet addr position w t

namespace Plan

variable {R : Recorder Event} {s t u z : State} {pl : Place} {v w : Value} {r : Except Signal Value}
  {a : Assignment} {n target object : Node} {p : Param} {vs : List Value} {args : List Node}
  {id : Nat} {ty : Ty} {operands : List Taken}

theorem account (h : n.assignment? = some (target, a))
    (he : n.plan.run R.toEvaluator s = .ended r t) :
    ∃ operands others write z u,
      SingleWrite R target a s z u operands others write r t (n.plan.trace R s) ∧
      ((∃ x, r = .error x) ∧ u.Raised t ∨
        ∃ vs pl w v, operands.map Taken.result = vs.map .ok ∧
          (prepare target a vs).run R.toEvaluator z = .ended (.ok (pl, w, v)) u ∧
          (store pl (w, v)).run R.toEvaluator u = .ended r t) := by
  rw [assignment_prepared h] at he ⊢
  rcases bind_ended he with ⟨x, rfl, hall, htrace⟩ | ⟨vs, z, hall, he, htrace⟩
  · obtain ⟨ks, hks⟩ := operands_evalAll hall
    have haccount := (Preparation.of_operands (a := a) hks).account (t := t) (x := x) (.inl rfl)
    rw [htrace, hks.trace]
    exact ⟨ks, [], none, t, t, List.append_nil (record R ks) ▸ haccount, .inl ⟨⟨x, rfl⟩, .inl rfl⟩⟩
  obtain ⟨ks, hks⟩ := operands_evalAll hall
  obtain ⟨hlength, hresults⟩ := hks.all vs rfl
  rw [htrace, hks.trace]
  rcases bind_ended he with ⟨x, rfl, hprep, htrace'⟩ | ⟨⟨pl, w, v⟩, u, hprep, hstore, htrace'⟩
  · obtain ⟨others, u, h⟩ := visits_prepare.visited hprep
    have hraised := h.raised x rfl
    rw [htrace', h.trace]
    exact ⟨ks, others, none, z, u, (Preparation.of_visited hks h).account hraised,
      .inl ⟨⟨x, rfl⟩, hraised⟩⟩
  obtain ⟨others, u', h⟩ := visits_prepare.visited hprep
  obtain ⟨hright, rfl⟩ := h.all _ rfl
  rw [htrace', h.trace, ← List.append_assoc]
  rcases store_ended hstore with ⟨q, hq, rfl, hwrite, -⟩ | ⟨x, rfl, hraised, hwrite⟩
  · obtain ⟨y, hresolve, -⟩ := prepare_ok hprep
    rw [hwrite]
    exact ⟨ks, others, some (pl.writing w), z, u, {
      toPreparation := .of_visited hks h
      trace := rfl
      written := by
        intro b hb
        cases hb
        refine ⟨Place.writing_writes, hlength, hright, ⟨vs, pl, w, y, hresults, hresolve, rfl⟩, q,
          hq, ?_⟩
        cases q <;> simp [Except.map]
      left := nofun }, .inr ⟨vs, pl, w, v, hresults, hprep, hstore⟩⟩
  · rw [hwrite, List.append_nil]
    exact ⟨ks, others, none, z, u, (Preparation.of_visited hks h).account hraised,
      .inl ⟨⟨x, rfl⟩, hraised⟩⟩

theorem assign_ended {q : Except Signal Value}
    (he : (Action.assign p w).run R.toEvaluator u = .ended q t) :
    (∃ x, q = .error x ∧ t = u) ∨ ∃ v, q = .ok v ∧ u.SlotSet p.id w t := by
  change (Evaluator.assign p w >>= fun _ => (return Value.void : Eval Value)) u = _ at he
  rw [Eval.bind_eq, Evaluator.assign] at he
  cases henv : u.env.assign? p.id w with
  | none =>
    rw [henv] at he
    have he : Outcome.ended (.error (.fatal (.unboundParameter p.text))) u = .ended q t := he
    obtain ⟨rfl, rfl⟩ := Outcome.ended_inj.mp he
    exact .inl ⟨_, rfl, rfl⟩
  | some env =>
    rw [henv] at he
    have he : Outcome.ended (.ok .void) { u with env } = .ended q t := he
    obtain ⟨rfl, rfl⟩ := Outcome.ended_inj.mp he
    exact .inr ⟨_, rfl, State.slotSet_of_assign? henv⟩

theorem slot_written
    (hprep : (prepare (.param p) a vs).run R.toEvaluator z = .ended (.ok (pl, w, v)) u)
    (hstore : (store pl (w, v)).run R.toEvaluator u = .ended r t) :
    SlotWritten R.toEvaluator p a z u t r := by
  obtain ⟨y, hresolve, hproduce⟩ := prepare_ok hprep
  obtain ⟨rfl, rfl⟩ := resolve_slot hresolve
  have hresults := produce_results hproduce fun _ _ hread => read_slot hread
  obtain ⟨q, hq, rfl, -⟩ := act_pure_ended hstore
  rcases assign_ended hq with ⟨x, rfl, rfl⟩ | ⟨v', rfl, hset⟩
  · exact ⟨.inl rfl, rfl⟩
  · exact ⟨w, hresults, hset⟩

theorem element_written (hall : operands.map Taken.result = vs.map .ok)
    (hprep : (prepare (.index id object none args ty) a vs).run R.toEvaluator z =
      .ended (.ok (pl, w, v)) u)
    (hstore : (store pl (w, v)).run R.toEvaluator u = .ended r t) :
    ElementWritten R.toEvaluator operands a z u t r := by
  obtain ⟨y, hresolve, hproduce⟩ := prepare_ok hprep
  obtain ⟨⟨array, index, addr, position, rfl, rfl, helement⟩, rfl⟩ := resolve_element hresolve
  have hresults := produce_results hproduce fun _ _ hread => read_element hread
  obtain ⟨⟨elem, rfl⟩, -⟩ := Value.index_of_element helement
  rcases store_ended hstore with ⟨q, hq, rfl, -, hlt⟩ | ⟨x, rfl, hraised, -⟩
  · have hq :
        Outcome.ended (.ok .void) { u with store := u.store.setArrayItem addr position w } =
          .ended q t :=
      hq
    obtain ⟨rfl, rfl⟩ := Outcome.ended_inj.mp hq
    exact ⟨elem, index, addr, position, w, hall, helement, hresults,
      State.elementSet_of_lt (hlt _ _ rfl)⟩
  · exact ⟨hraised, hraised.arrays_eq⟩

end Plan

/-- Unless no step is left for it, an assignment node of any form evaluates the operands of its
target once, comes to what it stores, and writes last and at most once. If the target is a parameter
or an element, then what an error leaves is what there was before the write; and otherwise the value
is found there, through whatever alias, while all else is as before. -/
theorem assignment_atomic (host : Host) (depth : Nat) {node target : Node} {a : Assignment}
    (h : node.assignment? = some (target, a)) (s : State) :
    match s.spent? with
    | some limit =>
      (eval host (depth + 1) node).run s =
        some (.error (.fatal (.budgetExceeded limit)), s.ticked) ∧
      trace host (depth + 1) node s = [.trip limit]
    | none =>
      ∀ r t, (eval host (depth + 1) node).run s = some (r, t) → ∃ operands others write z u tr,
      trace host (depth + 1) node s = .node node :: tr ∧
      SingleWrite (recorder host depth) target a s.ticked z u operands others write r t tr ∧
      (∀ p, target = .param p → SlotWritten (evaluator host depth) p a z u t r) ∧
      ∀ id object args ty, target = .index id object none args ty →
        ElementWritten (evaluator host depth) operands a z u t r := by
  cases hs : s.spent? with
  | some limit =>
    refine ⟨Eval.run_eq_some.mpr ?_, ?_⟩
    · rw [eval_succ, hs]
      rfl
    · simp [trace, hs]
  | none =>
    intro r t he
    have he : node.plan.run (recorder host depth).toEvaluator s.ticked = .ended r t := by
      rw [← Eval.run_eq_some.mp he, eval_succ, hs]
      rfl
    have htrace :
        trace host (depth + 1) node s =
          .node node :: node.plan.trace (recorder host depth) s.ticked := by
      rw [trace, hs]
      rfl
    obtain ⟨operands, others, write, z, u, haccount, hend⟩ := Plan.account h he
    refine ⟨operands, others, write, z, u, _, htrace, haccount, ?_, ?_⟩
    · rintro p rfl
      rcases hend with ⟨⟨x, rfl⟩, hraised⟩ | ⟨vs, pl, w, v, hall, hprep, hstore⟩
      · exact ⟨hraised, hraised.env_eq⟩
      · exact Plan.slot_written hprep hstore
    · rintro id object args ty rfl
      rcases hend with ⟨⟨x, rfl⟩, hraised⟩ | ⟨vs, pl, w, v, hall, hprep, hstore⟩
      · exact ⟨hraised, hraised.arrays_eq⟩
      · exact Plan.element_written hall hprep hstore

/-- The right operand has a parameter of its own under the same identity and sets that. The outer
one is set at the end, and a step after that has the value of before. -/
theorem outer_parameter_set :
    let host := Scripts.host {}
    let p : Param := ⟨0, none, .int .i32⟩
    let number (n : Int) : Value := .int .i32 (Word.wrap .i32 n)
    let set (id : Nat) (right : Node) : Node :=
      .binary id .assign (.param p) right none none (.int .i32)
    let right : Node :=
      .block 1 [p] [set 2 (.constant 3 (number 5) (.int .i32)), .constant 4 (number 7) (.int .i32)]
      (.int .i32)
    let s (n : Int) : State := { State.start none {} with env := .ofCaptures [(0, number n)] }
    (∃ u t : State, (eval host 4 (set 0 right)).run (s 1) = some (.ok (number 7), t) ∧
      u.SlotSet 0 (number 7) t) ∧
      ∃ u t : State,
        (eval host 4 (.unary 0 .postIncrement (some (.param p)) none (.int .i32))).run (s 7) =
        some (.ok (number 7), t) ∧ u.SlotSet 0 (number 8) t := by
  intro host p number set right s
  have hset :
      (eval host 4 (set 0 right)).run (s 1) = some (.ok (number 7), { s 7 with steps := 5 }) :=
    rfl
  have hstep :
      (eval host 4 (.unary 0 .postIncrement (some (.param p)) none (.int .i32))).run (s 7) =
      some (.ok (number 7), { s 8 with steps := 1 }) := rfl
  obtain ⟨_, _, _, _, u, _, -, -, hslot, -⟩ := assignment_atomic host 3 rfl (s 1) _ _ hset
  obtain ⟨w, rfl, hw⟩ := hslot p rfl
  obtain ⟨_, _, _, _, u', _, -, -, hslot, -⟩ := assignment_atomic host 3 rfl (s 7) _ _ hstep
  obtain ⟨w', -, hw'⟩ := hslot p rfl
  have hseen : some (number 8) = some w' := hw'.seen
  cases hseen
  exact ⟨⟨u, _, hset, hw⟩, u', _, hstep, hw'⟩

end ExprTree
