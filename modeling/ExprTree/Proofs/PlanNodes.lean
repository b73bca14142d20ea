import ExprTree.Proofs.NodePlan

/-! Which nodes a plan evaluates. Those of a node are its children, and the children of its target
where it writes one. -/
namespace ExprTree

/-- A node to evaluate satisfies `P`, and so does the body of a lambda that is run or made a
closure. -/
def Action.Among (P : Node → Prop) : Action → Prop
  | .eval n => P n
  | .sequence body => ∀ n ∈ body, P n
  | .loop body _ _ => P body
  | .convert f _ | .closure f => P f.body
  | _ => True

/-- All nodes that the plan may evaluate satisfy `P`, and those that it evaluates finally `F`. -/
def Plan.Among (P F : Node → Prop) {α : Type} : Plan α → Prop
  | .pure _ | .signal _ | .endless => True
  | .look next => ∀ w, (next w).Among P F
  | .act a next => a.Among P ∧ ∀ v, (next v).Among P F
  | .within _ p next => p.Among P F ∧ ∀ v, (next v).Among P F
  | .attempt p next => p.Among P F ∧ ∀ c, (next c).Among P F
  | .final p n next => p.Among P F ∧ F n ∧ ∀ v, (next v).Among P F

/-- The node that a node evaluates however it is left. -/
def Node.finalizer? : Node → Option Node
  | .guarded _ _ _ fin _ => fin
  | _ => none

namespace Plan

variable {α β : Type} {P F : Node → Prop} {p : Plan α} {f : α → Plan β} {n : Node} {ns : List Node}
  {m : Option Method}

theorem among_pure {a : α} : (pure a : Plan α).Among P F := trivial

theorem Among.bind (hp : p.Among P F) (hf : ∀ a, (f a).Among P F) : (p >>= f).Among P F := by
  change (Plan.bind p f).Among P F
  induction p with
  | pure a => exact hf a
  | signal x => trivial
  | endless => trivial
  | look next ih => exact fun w => ih w (hp w) hf
  | act a next ih => exact ⟨hp.1, fun v => ih v (hp.2 v) hf⟩
  | within fr p next _ ih => exact ⟨hp.1, fun v => ih v (hp.2 v) hf⟩
  | attempt p next _ ih => exact ⟨hp.1, fun c => ih c (hp.2 c) hf⟩
  | final p n next _ ih => exact ⟨hp.1, hp.2.1, fun v => ih v (hp.2.2 v) hf⟩

theorem Among.map {g : α → β} (hp : p.Among P F) : (g <$> p).Among P F :=
  hp.bind fun _ => among_pure

theorem among_ite {c : Prop} [Decidable c] {p q : Plan α} (hp : p.Among P F) (hq : q.Among P F) :
    (if c then p else q).Among P F := by
  split
  · exact hp
  · exact hq

theorem among_eval (hn : P n) : (eval n).Among P F := ⟨hn, fun _ => trivial⟩

theorem among_use {c : HandleCall} : (use c).Among P F := ⟨trivial, fun _ => trivial⟩

theorem among_fault {x : Fault} : (fault x : Plan α).Among P F := by
  cases x with
  | fatal e => trivial
  | raise c message => exact ⟨trivial, fun _ => trivial⟩
  | endless => trivial

theorem among_ofExcept {r : Except Fault α} : (ofExcept r).Among P F := by
  cases r with
  | ok a => trivial
  | error x => exact among_fault

/-! ### Operands and places -/

theorem among_evalAll (hn : ∀ n ∈ ns, P n) : (evalAll ns).Among P F := by
  induction ns with
  | nil => trivial
  | cons n ns ih =>
    refine (among_eval (hn n (by simp))).bind fun v => ?_
    exact (ih fun x hx => hn x (by simp [hx])).bind fun _ => among_pure

theorem among_receiver {member : String} (hn : P n) : (receiver n member).Among P F :=
  (among_eval hn).bind fun _ => among_ite among_fault among_pure

theorem among_receiver? {object : Option Node} {member : String} (hn : ∀ n ∈ object, P n) :
    (receiver? object member).Among P F := by
  cases object with
  | none => trivial
  | some x => exact (among_receiver (hn x rfl)).map

theorem among_indexed {i : Indexer} {target : Value} : (indexed i target).Among P F :=
  among_ite among_fault among_pure

theorem among_element {array index : Value} : (element array index).Among P F :=
  fun _ => among_ofExcept

theorem among_lookup {p : Param} : (lookup p).Among P F := by
  intro w
  dsimp only
  split <;> trivial

theorem among_readElement {addr position : Nat} : (readElement addr position).Among P F :=
  fun _ => among_ofExcept

theorem among_place (hn : ∀ c ∈ n.children, P c) : (place n).Among P F := by
  cases n with
  | param p => trivial
  | member id object m =>
    have hx : ∀ x ∈ object, P x := fun x hx => hn x (by simpa [Node.children] using hx)
    exact (among_receiver? hx).bind fun _ => among_pure
  | index id object indexer args t =>
    refine (among_eval (hn object (by simp [Node.children]))).bind fun target => ?_
    refine (among_evalAll fun x hx => hn x (by simp [Node.children, hx])).bind fun values => ?_
    split
    · exact among_indexed.bind fun _ => among_pure
    · exact among_element.bind fun _ => among_pure
    · trivial
  | _ => trivial

theorem among_read {l : Place} : (read l).Among P F := by
  cases l with
  | slot p => exact among_lookup
  | member target m => exact among_use
  | element addr position => exact among_readElement
  | item target i args => exact among_use

theorem among_write {l : Place} {v : Value} : (write l v).Among P F := by
  cases l with
  | slot p => exact ⟨trivial, fun _ => trivial⟩
  | member target m => exact ⟨trivial, fun _ => trivial⟩
  | element addr position => exact fun _ => among_ite ⟨trivial, fun _ => trivial⟩ among_fault
  | item target i args => exact ⟨trivial, fun _ => trivial⟩

/-! ### Operators -/

theorem among_applyBinary {op : NodeKind} {a b : Value} : (applyBinary op m a b).Among P F := by
  cases m with
  | some m => exact among_use
  | none => exact fun _ => among_ofExcept

theorem among_applyUnary {op : NodeKind} {v : Value} : (applyUnary op m v).Among P F := by
  cases m with
  | some m => exact among_use
  | none => exact fun _ => among_ofExcept

theorem among_evalBool (hn : P n) : (evalBool n).Among P F := by
  refine (among_eval hn).bind fun v => ?_
  cases v.bool? with
  | some b => trivial
  | none => exact among_fault

theorem among_evalBinary {op : BinaryOp} {l r : Node} {c : Option Lambda} (hl : P l)
    (hp : ∀ x ∈ l.children, P x) (hr : P r) (hc : ∀ f ∈ c, P f.body) :
    (evalBinary op l r m c).Among P F := by
  have hconvert (f : Lambda) (hf : f ∈ c) (v : Value) : (act (.convert f v) Plan.pure).Among P F :=
    ⟨hc f hf, fun _ => trivial⟩
  cases op with
  | assign =>
    refine (among_place hp).bind fun l => (among_eval hr).bind fun v => ?_
    exact among_write.bind fun _ => among_pure
  | compound op =>
    refine (among_place hp).bind fun l => among_read.bind fun a => ?_
    refine (among_eval hr).bind fun b => among_applyBinary.bind fun v => ?_
    have hw (v : Value) : (write l v >>= fun _ => pure v).Among P F :=
      among_write.bind fun _ => among_pure
    cases m with
    | none => exact hw v
    | some m =>
      cases c with
      | none => exact hw v
      | some f => exact (hconvert f rfl v).bind hw
  | andAlso =>
    refine (among_evalBool hl).bind fun a => ?_
    cases a with
    | false => trivial
    | true => exact (among_evalBool hr).bind fun _ => among_pure
  | orElse =>
    refine (among_evalBool hl).bind fun a => ?_
    cases a with
    | false => exact (among_evalBool hr).bind fun _ => among_pure
    | true => trivial
  | coalesce =>
    refine (among_eval hl).bind fun v => among_ite (among_eval hr) ?_
    cases c with
    | none => trivial
    | some f => exact hconvert f rfl v
  | arrayIndex =>
    refine (among_eval hl).bind fun array => (among_eval hr).bind fun index => ?_
    exact among_element.bind fun _ => among_readElement
  | arith op => exact (among_eval hl).bind fun a => (among_eval hr).bind fun b => among_applyBinary
  | compare op =>
    exact (among_eval hl).bind fun a => (among_eval hr).bind fun b => among_applyBinary

theorem among_step {op : UnaryArith} {post : Bool} (hn : ∀ c ∈ n.children, P c) :
    (step op post n m).Among P F := by
  refine (among_place hn).bind fun l => among_read.bind fun old => ?_
  exact among_applyUnary.bind fun new => among_write.bind fun _ => among_pure

theorem among_evalThrow {x : Option Node} (hx : ∀ n ∈ x, P n) : (evalThrow x).Among P F := by
  cases x with
  | none =>
    intro w
    dsimp only
    split
    · trivial
    · exact among_fault
  | some n =>
    refine (among_eval (hx n rfl)).bind fun v => ?_
    exact among_ite among_fault (among_ite trivial trivial)

theorem among_applyUnaryOp {op : UnaryOp} {ty : Ty} {v : Value} :
    (applyUnaryOp op m ty v).Among P F := by
  cases m with
  | some m => exact among_use
  | none =>
    unfold applyUnaryOp
    dsimp only
    split
    · exact among_ofExcept
    · exact among_ofExcept
    · trivial
    · exact among_ofExcept
    · exact among_ite among_fault among_applyUnary
    · exact among_applyUnary

/-- A quoted operand is not evaluated. -/
theorem among_evalUnary {op : UnaryOp} {x : Option Node} {ty : Ty}
    (hx : op ≠ .quote → ∀ n ∈ x, P n ∧ ∀ c ∈ n.children, P c) :
    (evalUnary op x m ty).Among P F := by
  cases x with
  | none =>
    cases op with
    | throw => exact among_evalThrow (x := none) nofun
    | _ => trivial
  | some n =>
    have happly (op : UnaryOp) (hn : P n) :
        (eval n >>= fun v => applyUnaryOp op m ty v).Among P F :=
      (among_eval hn).bind fun v => among_applyUnaryOp
    cases op with
    | throw => exact among_evalThrow fun y hy => (hx nofun y hy).1
    | quote => trivial
    | preIncrement | preDecrement | postIncrement | postDecrement =>
      exact among_step (hx nofun n rfl).2
    | _ => exact happly _ (hx nofun n rfl).1

theorem among_evalTypeTest {test : TypeTest} {ty : Ty} (hn : P n) :
    (evalTypeTest test n ty).Among P F :=
  (among_eval hn).bind fun _ => among_pure

/-! ### Control -/

theorem among_evalConditional {a b : Node} {ty : Ty} (hn : P n) (ha : P a) (hb : P b) :
    (evalConditional n a b ty).Among P F := by
  refine (among_evalBool hn).bind fun c => ?_
  cases c with
  | false => exact (among_eval hb).bind fun _ => among_pure
  | true => exact (among_eval ha).bind fun _ => among_pure

theorem among_evalBlock {vars : List Param} {ty : Ty} (hn : ∀ n ∈ ns, P n) :
    (evalBlock vars ns ty).Among P F := by
  have hs : (act (.sequence ns) Plan.pure).Among P F := ⟨hn, fun _ => trivial⟩
  cases vars with
  | nil => exact hs.bind fun _ => among_pure
  | cons v vs => exact Among.bind (p := within _ _ _) ⟨hs, fun _ => trivial⟩ fun _ => among_pure

theorem among_evalLabel {l : Label} {x : Option Node} (hx : ∀ n ∈ x, P n) :
    (evalLabel l x).Among P F := by
  cases x with
  | none => trivial
  | some n =>
    refine ⟨among_eval (hx n rfl), fun c => ?_⟩
    cases c with
    | value v => trivial
    | thrown x => trivial
    | jump l v => exact among_ite among_pure trivial

theorem among_evalGoto {l : Label} {x : Option Node} (hx : ∀ n ∈ x, P n) :
    (evalGoto l x).Among P F := by
  cases x with
  | none => trivial
  | some n => exact (among_eval (hx n rfl)).bind fun _ => trivial

theorem among_matchesCase {v candidate : Value} : (matchesCase m v candidate).Among P F := by
  cases m with
  | none => trivial
  | some m =>
    refine among_use.bind fun r => ?_
    cases r.bool? with
    | some b => trivial
    | none => exact among_fault

theorem among_anyMatches {v : Value} (hn : ∀ n ∈ ns, P n) : (anyMatches m v ns).Among P F := by
  induction ns with
  | nil => trivial
  | cons n ns ih =>
    refine (among_eval (hn n (by simp))).bind fun candidate => among_matchesCase.bind fun b => ?_
    exact among_ite among_pure (ih fun x hx => hn x (by simp [hx]))

/-- What is selected is the body of a case, or nothing. -/
theorem among_selectCase {v : Value} {cases : List SwitchCase} {k : Option Node → Plan α}
    (hc : ∀ c ∈ cases, ∀ n ∈ c.tests, P n) (hk : ∀ c ∈ cases, (k (some c.body)).Among P F)
    (hnone : (k none).Among P F) : (selectCase m v cases >>= k).Among P F := by
  induction cases with
  | nil => exact hnone
  | cons c cs ih =>
    unfold selectCase
    rw [bind_assoc]
    refine (among_anyMatches (hc c (by simp))).bind fun b => ?_
    cases b with
    | false => exact ih (fun x hx => hc x (by simp [hx])) fun x hx => hk x (by simp [hx])
    | true => exact hk c (by simp)

theorem among_evalSwitch {cases : List SwitchCase} {fallback : Option Node} {ty : Ty} (hn : P n)
    (hc : ∀ c ∈ cases, ∀ n ∈ c.nodes, P n) (hx : ∀ n ∈ fallback, P n) :
    (evalSwitch n cases fallback m ty).Among P F := by
  refine (among_eval hn).bind fun v => among_selectCase ?_ ?_ ?_
  · exact fun c hcs x hxt => hc c hcs x (by simp [SwitchCase.nodes, hxt])
  · exact fun c hcs => (among_eval (hc c hcs c.body (by simp [SwitchCase.nodes]))).bind fun _ =>
      among_pure
  · cases fallback with
    | none => trivial
    | some x => exact (among_eval (hx x rfl)).bind fun _ => among_pure

theorem among_accepts {h : CatchClause} {bs : Slots} (hf : ∀ n ∈ h.filter, P n) :
    (accepts h bs).Among P F := by
  unfold accepts
  split
  · trivial
  · rename_i f hfilter
    refine ⟨⟨among_eval (hf f hfilter), fun _ => trivial⟩, fun c => ?_⟩
    dsimp only
    split <;> trivial

theorem among_handle {x : Value} {fault : Option Node} {handlers : List CatchClause}
    (hh : ∀ h ∈ handlers, ∀ n ∈ h.nodes, P n) (hf : ∀ n ∈ fault, P n) :
    (handle x fault handlers).Among P F := by
  induction handlers with
  | nil =>
    cases fault with
    | none => trivial
    | some f => exact (among_eval (hf f rfl)).bind fun _ => trivial
  | cons h hs ih =>
    have hrest := ih fun c hc => hh c (by simp [hc])
    have hnodes := hh h (by simp)
    refine among_ite ?_ hrest
    refine (among_accepts fun n hn => hnodes n (by simp_all [CatchClause.nodes])).bind fun b => ?_
    refine among_ite ⟨⟨among_eval (hnodes _ (by simp [CatchClause.nodes])), fun _ => trivial⟩,
      ?_⟩ hrest
    exact fun _ => trivial

theorem among_evalGuarded {handlers : List CatchClause} {finalizer fault : Option Node} (hn : P n)
    (hh : ∀ h ∈ handlers, ∀ n ∈ h.nodes, P n) (hf : ∀ n ∈ fault, P n) (hz : ∀ n ∈ finalizer, F n) :
    (evalGuarded n handlers finalizer fault).Among P F := by
  have hguard : (guard n handlers fault).Among P F := by
    refine ⟨among_eval hn, fun c => ?_⟩
    cases c with
    | value v => trivial
    | thrown x => exact among_handle hh hf
    | jump l v => trivial
  cases finalizer with
  | none => exact hguard.bind fun _ => among_pure
  | some z =>
    exact Among.bind (p := final _ _ _) ⟨hguard, hz z rfl, fun _ => trivial⟩ fun _ => among_pure

/-! ### Calls, constructions and accesses -/

theorem among_evalNew {c : Construction} (hn : ∀ n ∈ c.args, P n) : (evalNew c).Among P F :=
  (among_evalAll hn).bind fun _ => among_use

theorem among_newSized {elem : Ty} {size : Value} : (newSized elem size).Among P F := by
  unfold newSized
  split
  · exact among_fault
  · exact among_ite among_fault ⟨trivial, fun _ => trivial⟩

theorem among_evalNewArray {form : ArrayForm} {elem : Ty} (hn : ∀ n ∈ ns, P n) :
    (evalNewArray form elem ns).Among P F := by
  refine (among_evalAll hn).bind fun values => ?_
  split
  · exact ⟨trivial, fun _ => trivial⟩
  · exact among_newSized
  · exact among_fault

theorem among_evalIndex {i : Option Indexer} (hn : P n) (hns : ∀ n ∈ ns, P n) :
    (evalIndex n i ns).Among P F := by
  refine (among_eval hn).bind fun target => (among_evalAll hns).bind fun args => ?_
  split
  · exact among_indexed.bind fun _ => among_use
  · exact among_element.bind fun _ => among_readElement
  · trivial

theorem among_addAll {v : Value} {inits : List ElementInit} (hi : ∀ i ∈ inits, ∀ n ∈ i.args, P n) :
    (addAll v inits).Among P F := by
  induction inits with
  | nil => trivial
  | cons i is ih =>
    refine (among_evalAll (hi i (by simp))).bind fun args => among_use.bind fun _ => ?_
    exact ih fun x hx => hi x (by simp [hx])

theorem among_initialized {what : String} {m : Member} {target : Option Value} :
    (initialized what m target).Among P F :=
  among_use.bind fun _ => among_ite among_fault among_pure

mutual

theorem among_bindMember {target : Value} (b : MemberBinding) (hn : ∀ n ∈ b.nodes, P n) :
    (bindMember target b).Among P F := by
  cases b with
  | assign id m value =>
    exact (among_eval (hn value (by simp [MemberBinding.nodes]))).bind fun v =>
      ⟨trivial, fun _ => trivial⟩
  | nested id m bindings =>
    exact among_initialized.bind fun v =>
      among_bindAll bindings (by simpa [MemberBinding.nodes] using hn)
  | list id m inits =>
    refine among_initialized.bind fun v => among_addAll fun i hi n hmem => ?_
    exact hn n (List.mem_flatMap.mpr ⟨i, hi, hmem⟩)

theorem among_bindAll {target : Value} (bs : List MemberBinding) (hn : ∀ n ∈ bindingNodes bs, P n) :
    (bindAll target bs).Among P F := by
  cases bs with
  | nil => trivial
  | cons b bs =>
    refine (among_bindMember b fun n h => hn n ?_).bind fun _ => among_bindAll bs fun n h => hn n ?_
    · simp [bindingNodes, h]
    · simp [bindingNodes, h]

end

theorem among_evalExtension {name : String} {x : Option Node} (hx : ∀ n ∈ x, P n) :
    (evalExtension name x).Among P F := by
  cases x with
  | none => trivial
  | some n => exact among_eval (hx n rfl)

end Plan

/-- A node evaluates its children and the children of its target. -/
theorem Node.plan_among {P F : Node → Prop} {n : Node} (hn : ∀ c ∈ n.children, P c)
    (hP : ∀ m, P m → ∀ c ∈ m.children, P c) (hF : ∀ z ∈ n.finalizer?, F z) : n.plan.Among P F := by
  cases n with
  | constant | default => trivial
  | param p => exact Plan.among_lookup
  | binary id op l r m c t =>
    have hl : P l := hn l (by simp [Node.children])
    exact Plan.among_evalBinary hl (hP l hl) (hn r (by simp [Node.children]))
      fun f hf =>
        hP (.lambda f) (hn _ (by simp_all [Node.children])) f.body (by simp [Node.children])
  | unary id op x m t =>
    refine Plan.among_evalUnary fun hop y hy => ?_
    have hy : P y := hn y (by cases op <;> simp_all [Node.children])
    exact ⟨hy, hP y hy⟩
  | typeTest id test x t => exact Plan.among_evalTypeTest (hn x (by simp [Node.children]))
  | conditional id test a b t =>
    exact Plan.among_evalConditional (hn test (by simp [Node.children]))
      (hn a (by simp [Node.children]))
      (hn b (by simp [Node.children]))
  | call id x m args =>
    refine (Plan.among_receiver? fun y hy => hn y (by simp_all [Node.children])).bind fun _ => ?_
    exact (Plan.among_evalAll fun y hy => hn y (by simp [Node.children, hy])).bind fun _ =>
      Plan.among_use
  | invoke id f args t =>
    refine (Plan.among_eval (hn f (by simp [Node.children]))).bind fun _ => ?_
    refine (Plan.among_evalAll fun y hy => hn y (by simp [Node.children, hy])).bind fun _ => ?_
    exact ⟨trivial, fun _ => trivial⟩
  | new c => exact Plan.among_evalNew hn
  | newArray id form e items => exact Plan.among_evalNewArray hn
  | member id x m =>
    exact (Plan.among_receiver? fun y hy => hn y (by simp_all [Node.children])).bind fun _ =>
      Plan.among_use
  | index id x i args t =>
    exact Plan.among_evalIndex (hn x (by simp [Node.children])) fun y hy =>
      hn y (by simp [Node.children, hy])
  | lambda f => exact ⟨hn f.body (by simp [Node.children]), fun _ => trivial⟩
  | block id vars body t => exact Plan.among_evalBlock hn
  | loop id body b c => exact ⟨hn body (by simp [Node.children]), fun _ => trivial⟩
  | label id l x => exact Plan.among_evalLabel fun y hy => hn y (by simp_all [Node.children])
  | goto id kind l x t => exact Plan.among_evalGoto fun y hy => hn y (by simp_all [Node.children])
  | switch id v cases x m t =>
    refine Plan.among_evalSwitch (hn v (by simp [Node.children])) (fun c hc y hy => hn y ?_)
      fun y hy => hn y (by simp_all [Node.children])
    exact List.mem_cons_of_mem _ (List.mem_append_left _ (List.mem_flatMap.mpr ⟨c, hc, hy⟩))
  | guarded id body handlers fin fault =>
    refine Plan.among_evalGuarded (hn body (by simp [Node.children])) (fun h hh y hy => hn y ?_)
      (fun y hy => hn y ?_) hF
    · exact List.mem_cons_of_mem _ (List.mem_append_left _ (List.mem_flatMap.mpr ⟨h, hh, hy⟩))
    · simp_all [Node.children]
  | listInit id c inits =>
    refine (Plan.among_evalNew fun y hy => hn y (by simp [Node.children, hy])).bind fun v => ?_
    refine (Plan.among_addAll fun i hi y hy => hn y ?_).bind fun _ => Plan.among_pure
    exact List.mem_append_right _ (List.mem_flatMap.mpr ⟨i, hi, hy⟩)
  | memberInit id c bindings =>
    refine (Plan.among_evalNew fun y hy => hn y (by simp [Node.children, hy])).bind fun v => ?_
    refine (Plan.among_bindAll bindings fun y hy => hn y ?_).bind fun _ => Plan.among_pure
    exact List.mem_append_right _ hy
  | extension id name t x sealed =>
    exact Plan.among_evalExtension fun y hy => hn y (by simp_all [Node.children])

end ExprTree
