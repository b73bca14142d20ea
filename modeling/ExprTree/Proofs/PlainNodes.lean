import ExprTree.Proofs.Keeping

/-! The nodes that neither bind names nor catch jumps. -/
namespace ExprTree.Evaluator

/-- Every use of a handle and every invocation keeps the contract. -/
structure HandlesKeep (ev : Evaluator) (C : Contract) (P : Signal → Prop) : Prop where
  method (m : Method) (receiver : Option Value) (args : List Value) :
    C.Keeps P (ev.method m receiver args)
  construct (c : Constructor) (args : List Value) : C.Keeps P (ev.construct c args)
  get (m : Member) (target : Option Value) : C.Keeps P (ev.get m target)
  set (m : Member) (target : Option Value) (v : Value) : C.Keeps P (ev.set m target v)
  getItem (i : Indexer) (target : Value) (args : List Value) : C.Keeps P (ev.getItem i target args)
  setItem (i : Indexer) (target : Value) (args : List Value) (v : Value) :
    C.Keeps P (ev.setItem i target args v)
  invoke (f : Value) (args : List Value) : C.Keeps P (ev.invoke f args)

open Contract

variable {ev : Evaluator} {C : Contract} {P : Signal → Prop} {n : Node} {ns : List Node}

/-! ### Operands -/

theorem evalAll_keeps (hn : ∀ n ∈ ns, C.Keeps P (ev.eval n)) : C.Keeps P (ev.evalAll ns) := by
  induction ns with
  | nil => exact keeps_pure
  | cons n ns ih =>
    refine (hn n (by simp)).bind fun _ => ?_
    exact (ih fun m hm => hn m (List.mem_cons_of_mem _ hm)).bind fun _ => keeps_pure

section

variable (h : C.Plain P) (hh : ev.HandlesKeep C P)

include h

theorem evalBool_keeps (hn : C.Keeps P (ev.eval n)) : C.Keeps P (ev.evalBool n) := by
  refine hn.bind fun v => ?_
  cases v.bool? with
  | some b => exact keeps_pure
  | none => exact h.fault (by rintro _ ⟨⟩; rfl)

theorem receiver_keeps {member : String} (hn : C.Keeps P (ev.eval n)) :
    C.Keeps P (ev.receiver n member) :=
  hn.bind fun _ => keeps_ite h.throw keeps_pure

theorem receiver?_keeps {object : Option Node} {member : String}
    (hn : ∀ n ∈ object, C.Keeps P (ev.eval n)) : C.Keeps P (ev.receiver? object member) := by
  cases object with
  | none => exact keeps_pure
  | some n => exact keeps_map (receiver_keeps h (hn n rfl))

theorem indexed_keeps {i : Indexer} {target : Value} : C.Keeps P (indexed i target) :=
  keeps_ite h.throw keeps_pure

theorem element_keeps {s : Store} {array index : Value} :
    C.Keeps P (Eval.ofExcept (Value.element s array index)) := by
  refine h.ofExcept (Value.element_lands.mono (fun _ _ => trivial) fun e he => ?_)
  cases e <;> first | rfl | cases he

theorem readElement_keeps {s : Store} {addr position : Nat} :
    C.Keeps P (Eval.ofExcept (s.readElement addr position)) :=
  h.ofExcept (Store.readElement_lands.mono (fun _ _ => trivial) nofun)

theorem writeElement_keeps {addr position : Nat} {v : Value} :
    C.Keeps P (writeElement addr position v) :=
  keeps_store.bind fun _ => keeps_ite (h.withStore fun _ => rfl) h.throw

theorem native_keeps {t : Ty} {r : Except Fault Value} (hr : Gives t r) :
    C.Keeps P (Eval.ofExcept r) := by
  refine h.ofExcept (hr.mono (fun _ _ => trivial) fun e he => ?_)
  cases e <;> first | rfl | cases he

include hh

theorem applyBinary_keeps {op : NodeKind} {m : Option Method} {a b : Value} :
    C.Keeps P (ev.applyBinary op m a b) := by
  cases m with
  | some m => exact hh.method m none [a, b]
  | none => exact keeps_store.bind fun _ => native_keeps h applyBinary_gives

theorem applyUnary_keeps {op : NodeKind} {m : Option Method} {v : Value} :
    C.Keeps P (ev.applyUnary op m v) := by
  cases m with
  | some m => exact hh.method m none [v]
  | none => exact keeps_store.bind fun _ => native_keeps h applyUnary_gives

/-! ### Places -/

/-- The place can be read and written. -/
structure Accessible (ev : Evaluator) (C : Contract) (P : Signal → Prop) (p : Place) : Prop where
  read : C.Keeps P (ev.read p)
  write (v : Value) : C.Keeps P (ev.write p v)

omit h hh in
/-- The parameters among the nodes can be read and written. -/
def SlotsKeep (C : Contract) (P : Signal → Prop) (n : Node) : Prop :=
  ∀ p, n = .param p → C.Keeps P (lookup p) ∧ ∀ v, C.Keeps P (assign p v)

theorem place_ensures (hn : n.isOpen → ∀ c ∈ n.children, C.Keeps P (ev.eval c))
    (hs : SlotsKeep C P n) : C.Ensures P (ev.Accessible C P) (ev.place n) := by
  cases n with
  | param p =>
    obtain ⟨hr, hw⟩ := hs p rfl
    exact ensures_pure ⟨hr, hw⟩
  | member id object m =>
    refine (receiver?_keeps h fun x hx =>
      hn rfl x (by simpa [Node.children] using hx)).bind fun t => ?_
    exact ensures_pure ⟨hh.get m t, hh.set m t⟩
  | index id object indexer args t =>
    refine (hn rfl object (by simp [Node.children])).bind fun target => ?_
    refine (evalAll_keeps fun a ha => hn rfl a (by simp [Node.children, ha])).bind fun values => ?_
    split
    · refine (indexed_keeps h).bind fun _ => ?_
      exact ensures_pure ⟨hh.getItem _ target _, hh.setItem _ target _⟩
    · refine keeps_store.bind fun s => (element_keeps h).bind fun p => ?_
      refine ensures_pure ⟨?_, fun v => writeElement_keeps h⟩
      exact keeps_store.bind fun _ => readElement_keeps h
    · exact ensures_signal (h.fatal rfl)
  | _ => exact ensures_signal (h.fatal rfl)

variable {l r : Node} {conversion : Option Lambda}

theorem assignment_keeps (hl : l.isOpen → ∀ c ∈ l.children, C.Keeps P (ev.eval c))
    (hs : SlotsKeep C P l) (hr : C.Keeps P (ev.eval r)) : C.Keeps P (ev.assignment l r) := by
  refine (place_ensures h hh hl hs).bind fun p hp => ?_
  exact hr.bind fun v => (hp.write v).bind fun _ => keeps_pure

theorem compound_keeps {op : Arith} {m : Option Method}
    (hl : l.isOpen → ∀ c ∈ l.children, C.Keeps P (ev.eval c)) (hs : SlotsKeep C P l)
    (hr : C.Keeps P (ev.eval r)) (hc : ∀ f ∈ conversion, ∀ v, C.Keeps P (ev.convertBy f v)) :
    C.Keeps P (ev.compound op l r m conversion) := by
  refine (place_ensures h hh hl hs).bind fun p hp => hp.read.bind fun a => hr.bind fun b => ?_
  refine (applyBinary_keeps h hh).bind fun v => ?_
  have hw (v : Value) : C.Keeps P (do ev.write p v; return v) :=
    (hp.write v).bind fun _ => keeps_pure
  split
  · exact (hc _ rfl v).bind hw
  · exact hw v

theorem step_keeps {op : UnaryArith} {post : Bool} {m : Option Method}
    (hl : l.isOpen → ∀ c ∈ l.children, C.Keeps P (ev.eval c)) (hs : SlotsKeep C P l) :
    C.Keeps P (ev.step op post l m) := by
  refine (place_ensures h hh hl hs).bind fun p hp => hp.read.bind fun old => ?_
  exact (applyUnary_keeps h hh).bind fun new => (hp.write new).bind fun _ => keeps_pure

/-! ### Operators -/

theorem evalBinary_keeps {op : BinaryOp} {m : Option Method}
    (hl : l.isOpen → ∀ c ∈ l.children, C.Keeps P (ev.eval c)) (hs : SlotsKeep C P l)
    (hl' : C.Keeps P (ev.eval l)) (hr : C.Keeps P (ev.eval r))
    (hc : ∀ f ∈ conversion, ∀ v, C.Keeps P (ev.convertBy f v)) :
    C.Keeps P (ev.evalBinary op l r m conversion) := by
  cases op with
  | assign => exact assignment_keeps h hh hl hs hr
  | compound op => exact compound_keeps h hh hl hs hr hc
  | andAlso =>
    refine (evalBool_keeps h hl').bind fun b => keeps_ite ?_ keeps_pure
    exact (evalBool_keeps h hr).bind fun _ => keeps_pure
  | orElse =>
    refine (evalBool_keeps h hl').bind fun b => keeps_ite keeps_pure ?_
    exact (evalBool_keeps h hr).bind fun _ => keeps_pure
  | coalesce =>
    refine hl'.bind fun v => keeps_ite hr ?_
    cases conversion with
    | none => exact keeps_pure
    | some f => exact hc f rfl v
  | arrayIndex =>
    refine hl'.bind fun a => hr.bind fun i => keeps_store.bind fun s => ?_
    exact (element_keeps h).bind fun p => keeps_store.bind fun t => readElement_keeps h
  | arith op => exact hl'.bind fun a => hr.bind fun b => applyBinary_keeps h hh
  | compare op => exact hl'.bind fun a => hr.bind fun b => applyBinary_keeps h hh

omit hh in
theorem evalThrow_keeps {x : Option Node} (hx : ∀ n ∈ x, C.Keeps P (ev.eval n)) :
    C.Keeps P (ev.evalThrow x) := by
  cases x with
  | none =>
    refine keeps_get.bind fun s => ?_
    split
    · exact ensures_signal (h.thrown _)
    · exact h.throw
  | some n =>
    refine (hx n rfl).bind fun v => keeps_ite h.throw (keeps_ite ?_ ?_)
    · exact ensures_signal (h.thrown v)
    · exact ensures_signal (h.fatal rfl)

theorem applyUnaryOp_keeps {op : UnaryOp} {m : Option Method} {t : Ty} {v : Value} :
    C.Keeps P (ev.applyUnaryOp op m t v) := by
  have hconv {r : Except Fault Value} (hr : Lands (·.fits t) (fun _ => False) r) :
      C.Keeps P (Eval.ofExcept r) := h.ofExcept (hr.mono (fun _ _ => trivial) nofun)
  unfold applyUnaryOp
  split
  · exact hh.method _ none [v]
  · split
    · exact hconv Value.convert_lands
    · exact hconv Value.convert_lands
    · exact keeps_pure
    · exact hconv Value.unbox_lands
    · exact keeps_ite h.throw (applyUnary_keeps h hh)
    · exact applyUnary_keeps h hh

theorem evalUnary_keeps {op : UnaryOp} {x : Option Node} {m : Option Method} {t : Ty}
    (hl : ∀ n ∈ x, n.isOpen → ∀ c ∈ n.children, C.Keeps P (ev.eval c))
    (hs : ∀ n ∈ x, SlotsKeep C P n) (hx : op ≠ .quote → ∀ n ∈ x, C.Keeps P (ev.eval n)) :
    C.Keeps P (ev.evalUnary op x m t) := by
  unfold evalUnary
  split
  · exact evalThrow_keeps h (hx (by simp))
  · exact ensures_signal (h.fatal rfl)
  · exact keeps_pure
  · exact step_keeps h hh (hl _ rfl) (hs _ rfl)
  · exact step_keeps h hh (hl _ rfl) (hs _ rfl)
  · exact step_keeps h hh (hl _ rfl) (hs _ rfl)
  · exact step_keeps h hh (hl _ rfl) (hs _ rfl)
  · rename_i hq _ _ _ _
    exact (hx hq _ rfl).bind fun v => applyUnaryOp_keeps h hh

/-! ### Choices -/

omit hh in
theorem evalConditional_keeps {test a b : Node} {t : Ty} (ht : C.Keeps P (ev.eval test))
    (ha : C.Keeps P (ev.eval a)) (hb : C.Keeps P (ev.eval b)) :
    C.Keeps P (ev.evalConditional test a b t) :=
  (evalBool_keeps h ht).bind fun _ =>
    keeps_ite (ha.bind fun _ => keeps_pure) (hb.bind fun _ => keeps_pure)

theorem matchesCase_keeps {comparer : Option Method} {v candidate : Value} :
    C.Keeps P (ev.matchesCase comparer v candidate) := by
  cases comparer with
  | none => exact keeps_pure
  | some m =>
    refine (hh.method m none [v, candidate]).bind fun r => ?_
    cases r.bool? with
    | some b => exact keeps_pure
    | none => exact h.fault (by rintro _ ⟨⟩; rfl)

theorem anyMatches_keeps {comparer : Option Method} {v : Value}
    (hn : ∀ n ∈ ns, C.Keeps P (ev.eval n)) : C.Keeps P (ev.anyMatches comparer v ns) := by
  induction ns with
  | nil => exact keeps_pure
  | cons n ns ih =>
    refine (hn n (by simp)).bind fun u => (matchesCase_keeps h hh).bind fun b =>
      keeps_ite keeps_pure ?_
    exact ih fun m hm => hn m (List.mem_cons_of_mem _ hm)

/-- The body selected is that of a case. -/
theorem selectCase_ensures (comparer : Option Method) (v : Value) {cases : List SwitchCase}
    (hn : ∀ c ∈ cases, ∀ n ∈ c.tests, C.Keeps P (ev.eval n)) :
    C.Ensures P (fun o => ∀ b ∈ o, ∃ c ∈ cases, b = c.body) (ev.selectCase comparer v cases) := by
  induction cases with
  | nil => exact ensures_pure (by simp)
  | cons c cs ih =>
    refine (anyMatches_keeps h hh (hn c (by simp))).bind fun b => keeps_ite ?_ ?_
    · exact ensures_pure (by simp)
    · refine (ih fun d hd => hn d (List.mem_cons_of_mem _ hd)).mono (fun _ hp => hp) ?_
      intro o ho b hb
      obtain ⟨d, hd, hbd⟩ := ho b hb
      exact ⟨d, List.mem_cons_of_mem _ hd, hbd⟩

theorem evalSwitch_keeps {cases : List SwitchCase} {fallback : Option Node}
    {comparer : Option Method} {t : Ty} (hv : C.Keeps P (ev.eval n))
    (hc : ∀ c ∈ cases, ∀ n ∈ c.nodes, C.Keeps P (ev.eval n))
    (hf : ∀ n ∈ fallback, C.Keeps P (ev.eval n)) :
    C.Keeps P (ev.evalSwitch n cases fallback comparer t) := by
  refine hv.bind fun v => ?_
  have hs := selectCase_ensures h hh comparer v
    fun c hcs n hn => hc c hcs n (List.mem_append_left _ hn)
  refine hs.bind fun selected hsel => ?_
  have hbody (b : Node) (hb : b ∈ selected.or fallback) : C.Keeps P (ev.eval b) := by
    rcases Option.or_eq_some_iff.mp hb with hb | ⟨_, hb⟩
    · obtain ⟨c, hcs, rfl⟩ := hsel b hb
      exact hc c hcs c.body (List.mem_append_right _ (by simp))
    · exact hf b hb
  split
  · rename_i b hb
    exact (hbody b hb).bind fun _ => keeps_pure
  · exact keeps_pure

/-! ### Calls, constructions and accesses -/

theorem evalCall_keeps {object : Option Node} {m : Method}
    (ho : ∀ n ∈ object, C.Keeps P (ev.eval n)) (ha : ∀ n ∈ ns, C.Keeps P (ev.eval n)) :
    C.Keeps P (ev.evalCall object m ns) :=
  (receiver?_keeps h ho).bind fun r => (evalAll_keeps ha).bind fun vs => hh.method m r vs

omit h in
theorem evalInvoke_keeps (hf : C.Keeps P (ev.eval n)) (ha : ∀ n ∈ ns, C.Keeps P (ev.eval n)) :
    C.Keeps P (ev.evalInvoke n ns) :=
  hf.bind fun f => (evalAll_keeps ha).bind fun vs => hh.invoke f vs

omit h in
theorem evalNew_keeps {c : Construction} (ha : ∀ n ∈ c.args, C.Keeps P (ev.eval n)) :
    C.Keeps P (ev.evalNew c) :=
  (evalAll_keeps ha).bind fun vs => hh.construct c.ctor vs

omit hh in
theorem newSized_keeps {elem : Ty} {size : Value} : C.Keeps P (newSized elem size) := by
  unfold newSized
  split
  · exact h.fault (by rintro _ ⟨⟩; rfl)
  · exact keeps_ite h.throw (h.withStore fun _ => rfl)

omit hh in
theorem evalNewArray_keeps {form : ArrayForm} {elem : Ty} (ha : ∀ n ∈ ns, C.Keeps P (ev.eval n)) :
    C.Keeps P (ev.evalNewArray form elem ns) := by
  refine (evalAll_keeps ha).bind fun vs => ?_
  split
  · exact h.withStore fun _ => rfl
  · exact newSized_keeps h
  · exact h.fault (by rintro _ ⟨⟩; rfl)

theorem evalMember_keeps {object : Option Node} {m : Member}
    (ho : ∀ n ∈ object, C.Keeps P (ev.eval n)) : C.Keeps P (ev.evalMember object m) :=
  (receiver?_keeps h ho).bind fun t => hh.get m t

theorem evalIndex_keeps {indexer : Option Indexer} (ho : C.Keeps P (ev.eval n))
    (ha : ∀ n ∈ ns, C.Keeps P (ev.eval n)) : C.Keeps P (ev.evalIndex n indexer ns) := by
  refine ho.bind fun target => (evalAll_keeps ha).bind fun vs => ?_
  split
  · exact (indexed_keeps h).bind fun _ => hh.getItem _ target _
  · exact keeps_store.bind fun s => (element_keeps h).bind fun p =>
      keeps_store.bind fun t => readElement_keeps h
  · exact ensures_signal (h.fatal rfl)

omit h in
theorem addAll_keeps {collection : Value} {inits : List ElementInit}
    (hi : ∀ i ∈ inits, ∀ n ∈ i.args, C.Keeps P (ev.eval n)) :
    C.Keeps P (ev.addAll collection inits) := by
  induction inits with
  | nil => exact keeps_pure
  | cons i is ih =>
    refine (evalAll_keeps (hi i (by simp))).bind fun vs => (hh.method _ _ vs).bind fun _ => ?_
    exact ih fun j hj => hi j (List.mem_cons_of_mem _ hj)

theorem initialized_keeps {what : String} {m : Member} {target : Option Value} :
    C.Keeps P (ev.initialized what m target) :=
  (hh.get m target).bind fun _ => keeps_ite h.throw keeps_pure

end

mutual

theorem bind_keeps (h : C.Plain P) (hh : ev.HandlesKeep C P) {target : Value} :
    (b : MemberBinding) →
    (∀ n ∈ b.nodes, C.Keeps P (ev.eval n)) → C.Keeps P (ev.bind target b)
  | .assign _ m x, hn => by
    refine (hn x (by simp [MemberBinding.nodes])).bind fun v => ?_
    exact hh.set m _ v
  | .nested _ m bs, hn => by
    refine (initialized_keeps h hh).bind fun v => ?_
    exact bindAll_keeps h hh bs fun n hb => hn n (by simpa [MemberBinding.nodes] using hb)
  | .list _ m is, hn => by
    refine (initialized_keeps h hh).bind fun v => addAll_keeps hh fun i hi n hx => ?_
    exact hn n (List.mem_flatMap.mpr ⟨i, hi, hx⟩)

theorem bindAll_keeps (h : C.Plain P) (hh : ev.HandlesKeep C P) {target : Value} :
    (bs : List MemberBinding) → (∀ n ∈ bindingNodes bs, C.Keeps P (ev.eval n)) →
    C.Keeps P (ev.bindAll target bs)
  | [], _ => keeps_pure
  | b :: bs, hn => by
    refine (bind_keeps h hh b fun n hb => hn n (List.mem_append_left _ hb)).bind fun _ => ?_
    exact bindAll_keeps h hh bs fun n hb => hn n (List.mem_append_right _ hb)

end

/-! ### All of them -/

/-- The nodes of `G` can be evaluated, and what they mean by their names is allowed: their slots can
be read and written, their jumps made, and their conversions called. -/
structure Admits (ev : Evaluator) (C : Contract) (P : Signal → Prop) (G : Node → Prop) : Prop where
  child {n c : Node} : G n → n.isOpen → c ∈ n.children → G c
  eval {n : Node} : G n → C.Keeps P (ev.eval n)
  slot {p : Param} : G (.param p) → C.Keeps P (lookup p) ∧ ∀ v, C.Keeps P (assign p v)
  jump {id : Nat} {kind : JumpKind} {l : Label} {x : Option Node} {t : Ty} (v : Value) :
    G (.goto id kind l x t) → P (.jump l v)
  convert {f : Lambda} (v : Value) : G (.lambda f) → C.Keeps P (ev.convertBy f v)

variable {G : Node → Prop}

theorem Admits.slots (hG : ev.Admits C P G) (hn : G n) : SlotsKeep C P n := by
  rintro p rfl
  exact hG.slot hn

/-- A node that binds nothing keeps the contract. -/
theorem node_keeps (h : C.Plain P) (hh : ev.HandlesKeep C P) (hG : ev.Admits C P G) (hn : G n)
    (ho : n.isOpen) : C.Keeps P (ev.node n) := by
  have hc (c : Node) (hc : c ∈ n.children) : G c := hG.child hn ho hc
  have hk (c : Node) (hm : c ∈ n.children) : C.Keeps P (ev.eval c) := hG.eval (hc c hm)
  have hl (l : Node) (hm : l ∈ n.children) :
      (l.isOpen → ∀ c ∈ l.children, C.Keeps P (ev.eval c)) ∧ SlotsKeep C P l :=
    ⟨fun hlo c hcl => hG.eval (hG.child (hc l hm) hlo hcl), hG.slots (hc l hm)⟩
  cases n with
  | constant id v t => exact keeps_pure
  | default id t => exact keeps_pure
  | param p => exact (hG.slot hn).1
  | binary id op l r m f t =>
    obtain ⟨hlc, hls⟩ := hl l (by simp [Node.children])
    refine evalBinary_keeps h hh hlc hls (hk l (by simp [Node.children]))
      (hk r (by simp [Node.children])) fun g hg v => hG.convert v (hc _ ?_)
    simp only [Node.children, List.mem_cons, Option.mem_toList, Option.map_eq_some_iff]
    exact Or.inr (Or.inr ⟨g, hg, rfl⟩)
  | unary id op x m t =>
    by_cases hq : op = .quote
    · subst hq
      cases x with
      | none => exact ensures_signal (h.fatal rfl)
      | some x => exact keeps_pure
    · have hx (y : Node) (hy : y ∈ x) : y ∈ (Node.unary id op x m t).children := by
        cases op <;> simp_all [Node.children]
      exact evalUnary_keeps h hh (fun y hy => (hl y (hx y hy)).1) (fun y hy => (hl y (hx y hy)).2)
        fun _ y hy => hk y (hx y hy)
  | typeTest id test x t =>
    exact (hk x (by simp [Node.children])).bind fun _ => keeps_pure
  | conditional id test a b t =>
    exact evalConditional_keeps h (hk test (by simp [Node.children]))
      (hk a (by simp [Node.children]))
      (hk b (by simp [Node.children]))
  | call id x m args =>
    exact evalCall_keeps h hh (fun y hy => hk y (by simp_all [Node.children]))
      fun y hy => hk y (by simp [Node.children, hy])
  | invoke id f args t =>
    exact evalInvoke_keeps hh (hk f (by simp [Node.children])) fun y hy =>
      hk y (by simp [Node.children, hy])
  | new c => exact evalNew_keeps hh hk
  | newArray id form e items => exact evalNewArray_keeps h hk
  | member id x m =>
    exact evalMember_keeps h hh fun y hy => hk y (by simpa [Node.children] using hy)
  | index id x i args t =>
    exact evalIndex_keeps h hh (hk x (by simp [Node.children])) fun y hy =>
      hk y (by simp [Node.children, hy])
  | goto id kind l x t =>
    cases x with
    | none => exact keeps_pure.bind fun v => ensures_signal (hG.jump v hn)
    | some x => exact (hk x (by simp [Node.children])).bind fun v => ensures_signal (hG.jump v hn)
  | switch id v cases x m t =>
    refine evalSwitch_keeps h hh (hk v (by simp [Node.children])) (fun c hcs y hy => hk y ?_)
      fun y hy => hk y ?_
    · exact List.mem_cons_of_mem _ (List.mem_append_left _ (List.mem_flatMap.mpr ⟨c, hcs, hy⟩))
    · simp_all [Node.children]
  | listInit id c inits =>
    refine (evalNew_keeps hh fun y hy => hk y (List.mem_append_left _ hy)).bind fun v => ?_
    refine (addAll_keeps hh fun i hi y hy => hk y ?_).bind fun _ => keeps_pure
    exact List.mem_append_right _ (List.mem_flatMap.mpr ⟨i, hi, hy⟩)
  | memberInit id c bs =>
    refine (evalNew_keeps hh fun y hy => hk y (List.mem_append_left _ hy)).bind fun v => ?_
    exact (bindAll_keeps h hh bs fun y hy => hk y (List.mem_append_right _ hy)).bind fun _ =>
      keeps_pure
  | extension id name t x sealed =>
    cases x with
    | none => exact ensures_signal (h.fatal rfl)
    | some x => exact hk x (by simp [Node.children])
  | lambda _ | block | loop | label | guarded => cases ho

end ExprTree.Evaluator
