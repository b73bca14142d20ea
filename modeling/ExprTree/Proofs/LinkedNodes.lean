import ExprTree.Proofs.Items
import ExprTree.Proofs.Link

/-! The plans of two nodes, the one over parts that are related to those of the other, are linked.
There is one lemma for each part of an evaluation that names a node, a parameter or a label. -/
namespace ExprTree

open scoped Function

/-- Constants, parameters and quoted trees, which are not evaluated by parts. -/
def Node.isWhole : Node → Bool
  | .constant .. | .param _ | .unary _ .quote _ _ _ => true
  | _ => false

theorem Node.exists_quote {n : Node} (hw : n.isWhole = true) (ha : n.isAtomic = false) :
    ∃ id x k t, n = .unary id .quote x k t := by
  cases n with
  | unary id op x k t => cases op <;> cases hw; exact ⟨id, x, k, t, rfl⟩
  | constant | param => cases ha
  | _ => cases hw

/-- Related items correspond in the link, and each is over parts that are related again. -/
structure Link.Covers (L : Link) (R : Item → Item → Prop) : Prop where
  node {n m : Node} (h : R (.node n) (.node m)) : L.node n m
  param {p q : Param} (h : R (.param p) (.param q)) : L.Names p q
  ty {n m : Node} (h : R (.node n) (.node m)) : m.ty = n.ty
  atom {n m : Node} (h : R (.node n) (.node m)) (hn : n.isAtomic = true) : m.isAtomic = true
  compound {i j : Item} (h : R i j) (hi : ∀ n, i = .node n → n.isWhole = false) :
    i.Over L.Targets R j
  /-- A quoted tree is a value, and so it is not changed. -/
  quote {id : Nat} {x : Option Node} {k : Option Method} {t : Ty} {m : Node}
    (h : R (.node (.unary id .quote x k t)) (.node m)) : ∃ id', m = .unary id' .quote x k t
  lookup {d e : Environment} {i j : Nat} (h : L.env d e) (hi : L.slot i j) : e.lookup j = d.lookup i
  /-- Labels are told apart on both sides alike. -/
  label {k k' l l' : Label} (h : L.label k k') (hl : L.label l l') : k.id = l.id ↔ k'.id = l'.id

/-- The second node is the first one over related parts. -/
theorem Link.Covers.overNode {L : Link} {R : Item → Item → Prop} (hC : L.Covers R) {n m : Node}
    (h : R (.node n) (.node m)) (hn : n.isWhole = false) :
    ∃ id p, n.parts.Rel L.Targets R p ∧ m = n.over id p ∧
      Option.Rel (fun x y => y.kind = x.kind) n.written? m.written? := by
  cases hC.compound h (by rintro _ ⟨⟩; exact hn) with
  | node id hp hw => exact ⟨id, _, hp, rfl, hw⟩

theorem Link.Covers.kind {L : Link} {R : Item → Item → Prop} (hC : L.Covers R) {n m : Node}
    (h : R (.node n) (.node m)) (hn : n.isAtomic = false) : m.kind = n.kind := by
  by_cases hwhole : n.isWhole = true
  · obtain ⟨id, x, k, t, rfl⟩ := Node.exists_quote hwhole hn
    obtain ⟨id', rfl⟩ := hC.quote h
    rfl
  · obtain ⟨id, q, -, rfl, -⟩ := hC.overNode h (Bool.eq_false_iff.mpr hwhole)
    exact Node.kind_over

theorem Link.Covers.kind_ne_label {L : Link} {R : Item → Item → Prop} (hC : L.Covers R) {n m : Node}
    (h : R (.node n) (.node m)) (hn : n.kind ≠ .label) : m.kind ≠ .label := by
  by_cases hatom : n.isAtomic = true
  · have hm := hC.atom h hatom
    rintro hkind
    cases m <;> cases hkind
    cases hm
  · rwa [hC.kind h (Bool.eq_false_iff.mpr hatom)]

/-- Corresponding labels are told apart on both sides alike. -/
theorem Link.Covers.beq {L : Link} {R : Item → Item → Prop} (hC : L.Covers R) {k k' l l' : Label}
    (h : L.Targets k k') (hl : L.Targets l l') : (k' == l') = (k == l) := by
  have hid : (k'.id == l'.id) = (k.id == l.id) := by
    rw [Bool.eq_iff_iff, beq_iff_eq, beq_iff_eq]
    exact (hC.label h.label hl.label).symm
  exact hid

inductive Link.Places (L : Link) : Place → Place → Prop where
  | slot {p q : Param} (h : L.Names p q) : Places L (.slot p) (.slot q)
  | member (target : Option Value) (m : Member) : Places L (.member target m) (.member target m)
  | element (addr position : Nat) : Places L (.element addr position) (.element addr position)
  | item (target : Value) (i : Indexer) (args : List Value) :
    Places L (.item target i args) (.item target i args)

namespace Plan

variable {L : Link} {R : Item → Item → Prop} {α : Type} {n m : Node} {ns ms : List Node}
  {x y : Option Node} {k : Option Method} {f g : Option Lambda}

/-- What comes next goes on from the same value. -/
theorem Linked.next {β : Type} {P : β → β → Prop} {p q : Plan α} {f g : α → Plan β}
    (h : p.Linked L Eq q) (hf : ∀ a, (f a).Linked L P (g a)) : (p >>= f).Linked L P (q >>= g) :=
  h.bind fun a _ hab => hab ▸ hf a

theorem linked_eval (h : L.node n m) : (eval n).Linked L Eq (eval m) :=
  .act (.eval h) fun _ => .pure rfl

theorem linked_use (c : HandleCall) : (use c).Linked L Eq (use c) :=
  .act (.use c) fun _ => .pure rfl

theorem linked_fatal {Q : α → α → Prop} (e : EvalError) : (fatal e).Linked L Q (fatal e) :=
  .signal (.fatal e)

theorem linked_fault {Q : α → α → Prop} (e : Fault) : (fault e).Linked L Q (fault e) := by
  cases e with
  | fatal e => exact linked_fatal e
  | raise c message => exact .act (.newException c message) fun v => .signal (.thrown v)
  | endless => exact .endless

theorem linked_ofExcept (r : Except Fault α) : (ofExcept r).Linked L Eq (ofExcept r) := by
  cases r with
  | ok a => exact .pure rfl
  | error e => exact linked_fault e

theorem linked_ite {Q : α → α → Prop} {c : Prop} [Decidable c] {p p' q q' : Plan α}
    (hp : p.Linked L Q p') (hq : q.Linked L Q q') :
    (if c then p else q).Linked L Q (if c then p' else q') := by
  split
  · exact hp
  · exact hq

/-- What hangs on the store alone is looked up alike. -/
theorem linked_stored (r : Store → Except Fault α) :
    (look fun w => ofExcept (r w.store)).Linked L Eq (look fun w => ofExcept (r w.store)) := by
  refine .look fun w w' h => ?_
  rw [h.store]
  exact linked_ofExcept _

/-! ### Operands and places -/

theorem linked_evalAll (h : List.Forall₂ L.node ns ms) : (evalAll ns).Linked L Eq (evalAll ms) := by
  induction h with
  | nil => exact .pure rfl
  | cons h _ ih => exact (linked_eval h).next fun v => ih.next fun vs => .pure rfl

theorem linked_receiver (h : L.node n m) (member : String) :
    (receiver n member).Linked L Eq (receiver m member) :=
  (linked_eval h).next fun _ => linked_ite (linked_fault _) (.pure rfl)

theorem linked_receiver? (h : Option.Rel L.node x y) (member : String) :
    (receiver? x member).Linked L Eq (receiver? y member) := by
  cases h with
  | none => exact .pure rfl
  | some h => exact (linked_receiver h member).next fun _ => .pure rfl

theorem linked_indexed (i : Indexer) (target : Value) :
    (indexed i target).Linked L Eq (indexed i target) :=
  linked_ite (linked_fault _) (.pure rfl)

theorem linked_element (array index : Value) :
    (element array index).Linked L Eq (element array index) :=
  linked_stored fun s => Value.element s array index

theorem linked_readElement (addr position : Nat) :
    (readElement addr position).Linked L Eq (readElement addr position) :=
  linked_stored fun s => s.readElement addr position

theorem linked_read (hC : L.Covers R) {l l' : Place} (h : L.Places l l') :
    (read l).Linked L Eq (read l') := by
  cases h with
  | slot h =>
    refine .look fun w w' hw => ?_
    rw [hC.lookup hw.env h.id, h.text]
    cases w.env.lookup _ with
    | none => exact linked_fatal _
    | some v => exact .pure rfl
  | member target m => exact linked_use _
  | element addr position => exact linked_readElement addr position
  | item target i args => exact linked_use _

theorem linked_write {l l' : Place} (h : L.Places l l') (v : Value) :
    (write l v).Linked L Eq (write l' v) := by
  cases h with
  | slot h => exact .act (.assign h v) fun _ => .pure rfl
  | member target m => exact .act (.use _) fun _ => .pure rfl
  | element addr position =>
    refine .look fun w w' hw => ?_
    rw [hw.store]
    exact linked_ite (.act (.element addr position v) fun _ => .pure rfl) (linked_fault _)
  | item target i args => exact .act (.use _) fun _ => .pure rfl

/-- What is assigned to is a place on both sides or on none. -/
theorem linked_place (hC : L.Covers R) (h : R (.node n) (.node m)) (hkind : m.kind = n.kind) :
    (place n).Linked L L.Places (place m) := by
  cases n with
  | param p =>
    cases m <;> cases hkind
    exact .pure (.slot (hC.param h))
  | member id x k =>
    obtain ⟨id', q, hp, rfl, -⟩ := hC.overNode h rfl
    cases q with | member y => ?_
    exact (linked_receiver? (option_rel_mono hp fun _ _ => hC.node) k.name).next fun target =>
      .pure (.member target k)
  | index id x i args t =>
    obtain ⟨id', q, hp, rfl, -⟩ := hC.overNode h rfl
    cases q with | index x' args' => ?_
    refine (linked_eval (hC.node hp.1)).next fun target => ?_
    refine (linked_evalAll (hp.2.imp fun _ _ => hC.node)).next fun values => ?_
    dsimp only
    split
    · exact (linked_indexed _ target).next fun _ => .pure (.item target _ values)
    · exact (linked_element target _).next fun _ => .pure (.element _ _)
    · exact linked_fatal _
  | _ =>
    have hm : place m = fatal (.notAssignable m.kind) := by cases m <;> first | rfl | cases hkind
    rw [hm, hkind]
    exact linked_fatal _


/-! ### Operators -/

theorem linked_applyBinary (op : NodeKind) (k : Option Method) (a b : Value) :
    (applyBinary op k a b).Linked L Eq (applyBinary op k a b) := by
  cases k with
  | some k => exact linked_use _
  | none => exact linked_stored fun s => op.applyBinary s a b

theorem linked_applyUnary (op : NodeKind) (k : Option Method) (v : Value) :
    (applyUnary op k v).Linked L Eq (applyUnary op k v) := by
  cases k with
  | some k => exact linked_use _
  | none => exact linked_stored fun s => op.applyUnary s v

theorem linked_evalBool (h : L.node n m) : (evalBool n).Linked L Eq (evalBool m) := by
  refine (linked_eval h).next fun v => ?_
  cases v.bool? with
  | some b => exact .pure rfl
  | none => exact linked_fault _

theorem linked_convert (hC : L.Covers R) {f g : Lambda} (h : R (.lambda f) (.lambda g))
    (v : Value) : (act (.convert f v) Plan.pure).Linked L Eq (act (.convert g v) Plan.pure) :=
  .act (.convert (hC.node h) v) fun _ => .pure rfl

theorem linked_evalBinary (hC : L.Covers R) {op : BinaryOp} {l l' r r' : Node}
    (hl : R (.node l) (.node l')) (hr : R (.node r) (.node r')) (hf : Option.Rel (R on .lambda) f g)
    (hw : op = .assign ∨ (∃ a, op = .compound a) → l'.kind = l.kind) :
    (evalBinary op l r k f).Linked L Eq (evalBinary op l' r' k g) := by
  have left := linked_eval (hC.node hl)
  have right := linked_eval (hC.node hr)
  cases op with
  | assign =>
    refine (linked_place hC hl (hw (.inl rfl))).bind fun p q hp => right.next fun v => ?_
    exact (linked_write hp v).next fun _ => .pure rfl
  | compound op =>
    refine (linked_place hC hl (hw (.inr ⟨op, rfl⟩))).bind fun p q hp =>
      (linked_read hC hp).next fun a => ?_
    refine right.next fun b => (linked_applyBinary _ k a b).next fun v => ?_
    have hwrite (v : Value) :
        (write p v >>= fun _ => pure v).Linked L Eq (write q v >>= fun _ => pure v) :=
      (linked_write hp v).next fun _ => .pure rfl
    cases k with
    | none => exact hwrite v
    | some k => cases hf with
      | none => exact hwrite v
      | some hf => exact (linked_convert hC hf v).next hwrite
  | andAlso =>
    refine (linked_evalBool (hC.node hl)).next fun a => ?_
    exact linked_ite ((linked_evalBool (hC.node hr)).next fun _ => .pure rfl) (.pure rfl)
  | orElse =>
    refine (linked_evalBool (hC.node hl)).next fun a => ?_
    exact linked_ite (.pure rfl) ((linked_evalBool (hC.node hr)).next fun _ => .pure rfl)
  | coalesce =>
    refine left.next fun v => linked_ite right ?_
    cases hf with
    | none => exact .pure rfl
    | some hf => exact linked_convert hC hf v
  | arrayIndex =>
    refine left.next fun array => right.next fun index => ?_
    exact (linked_element array index).next fun _ => linked_readElement _ _
  | arith op => exact left.next fun a => right.next fun b => linked_applyBinary _ k a b
  | compare op => exact left.next fun a => right.next fun b => linked_applyBinary _ k a b

theorem linked_step (hC : L.Covers R) {op : UnaryArith} {post : Bool} (h : R (.node n) (.node m))
    (hkind : m.kind = n.kind) : (step op post n k).Linked L Eq (step op post m k) := by
  refine (linked_place hC h hkind).bind fun p q hp => (linked_read hC hp).next fun old => ?_
  exact (linked_applyUnary _ k old).next fun new => (linked_write hp new).next fun _ => .pure rfl

theorem linked_evalThrow (h : Option.Rel L.node x y) : (evalThrow x).Linked L Eq (evalThrow y) := by
  cases h with
  | none =>
    refine .look fun w w' hw => ?_
    rw [hw.handling]
    split
    · exact .signal (.thrown _)
    · exact linked_fault _
  | some h =>
    refine (linked_eval h).next fun v => ?_
    exact linked_ite (linked_fault _) (linked_ite (.signal (.thrown v)) (linked_fatal _))

theorem linked_applyUnaryOp (op : UnaryOp) (k : Option Method) (t : Ty) (v : Value) :
    (applyUnaryOp op k t v).Linked L Eq (applyUnaryOp op k t v) := by
  cases k with
  | some k => exact linked_use _
  | none =>
    unfold applyUnaryOp
    dsimp only
    split
    · exact linked_ofExcept _
    · exact linked_ofExcept _
    · exact .pure rfl
    · exact linked_ofExcept _
    · exact linked_ite (linked_fault _) (linked_applyUnary _ none v)
    · exact linked_applyUnary _ none v

theorem linked_evalUnary (hC : L.Covers R) {op : UnaryOp} {t : Ty} (hop : op ≠ .quote)
    (h : Option.Rel (R on .node) x y)
    (hw : Option.Rel (fun n m => m.kind = n.kind) (Node.unary 0 op x k t).written?
      (Node.unary 0 op y k t).written?) :
    (evalUnary op x k t).Linked L Eq (evalUnary op y k t) := by
  cases h with
  | none =>
    cases op with
    | throw => exact linked_evalThrow .none
    | _ => exact linked_fatal _
  | some h =>
    have happly (op : UnaryOp) : (eval _ >>= fun v => applyUnaryOp op k t v).Linked L Eq
        (eval _ >>= fun v => applyUnaryOp op k t v) :=
      (linked_eval (hC.node h)).next fun v => linked_applyUnaryOp op k t v
    cases op with
    | throw => exact linked_evalThrow (.some (hC.node h))
    | quote => exact absurd rfl hop
    | preIncrement | preDecrement | postIncrement | postDecrement =>
      cases hw with | some hkind => ?_
      exact linked_step hC h hkind
    | _ => exact happly _

/-! ### Control -/

theorem linked_evalConditional {a a' b b' : Node} {t : Ty} (h : L.node n m) (ha : L.node a a')
    (hb : L.node b b') : (evalConditional n a b t).Linked L Eq (evalConditional m a' b' t) := by
  refine (linked_evalBool h).next fun c => ?_
  cases c with
  | false => exact (linked_eval hb).next fun _ => .pure rfl
  | true => exact (linked_eval ha).next fun _ => .pure rfl

/-- The labels of related sequences stand in the same positions. -/
theorem linked_sequences (hC : L.Covers R) (h : List.Forall₂ (R on .node) ns ms) :
    L.Sequences ns ms where
  nodes := h.imp fun _ _ => hC.node
  rest {k l} hl := by
    induction h with
    | nil => exact .none
    | @cons n m ns ms h hns ih =>
      by_cases hn : n.kind = .label
      · cases n <;> cases hn
        rename_i id b z
        obtain ⟨id', q, hp, rfl, -⟩ := hC.overNode h rfl
        cases q with | label b' z' => ?_
        have hb : (b' == l) = (b == k) := hC.beq hp.1 hl
        change Option.Rel _ (if b == k then some ns else _) (if b' == l then some ms else _)
        rw [hb]
        split
        · exact .some (hns.imp fun _ _ => hC.node)
        · exact ih
      · rw [Evaluator.afterLabel?_cons hn, Evaluator.afterLabel?_cons (hC.kind_ne_label h hn)]
        exact ih

theorem linked_evalBlock (hC : L.Covers R) {vs vs' : List Param} {t : Ty}
    (hv : List.Forall₂ (R on .param) vs vs') (h : List.Forall₂ (R on .node) ns ms) :
    (evalBlock vs ns t).Linked L Eq (evalBlock vs' ms t) := by
  have hs : (act (.sequence ns) Plan.pure).Linked L Eq (act (.sequence ms) Plan.pure) :=
    .act (.sequence (linked_sequences hC h)) fun _ => .pure rfl
  have hb : L.Binds (vs.map fun p => (p.id, .zero p.ty)) (vs'.map fun p => (p.id, .zero p.ty)) := by
    induction hv with
    | nil => exact .nil
    | cons h _ ih =>
      have hnames := hC.param h
      exact .cons ⟨hnames.id, congrArg Value.zero hnames.ty⟩ ih
  cases hv with
  | nil => exact hs.next fun _ => .pure rfl
  | cons _ _ =>
    exact Linked.next (p := within _ _ _)
      (.within (.bindings hb) hs fun _ => .pure rfl) fun _ => .pure rfl

theorem linked_evalLabel (hC : L.Covers R) {k l : Label} (hl : L.Targets k l)
    (h : Option.Rel L.node x y) : (evalLabel k x).Linked L Eq (evalLabel l y) := by
  cases h with
  | none => exact .pure (by rw [hl.ty])
  | some h =>
    refine .attempt (linked_eval h) fun c d hcd => ?_
    cases hcd with
    | value v => exact .pure rfl
    | thrown v => exact .signal (.thrown v)
    | @jump a b hab v =>
      dsimp only
      rw [hC.beq hab hl]
      exact linked_ite (.pure rfl) (.signal (.jump hab v))

theorem linked_evalGoto {k l : Label} (hl : L.Targets k l) (h : Option.Rel L.node x y) :
    (evalGoto k x).Linked L Eq (evalGoto l y) := by
  cases h with
  | none => exact .signal (.jump hl .void)
  | some h => exact (linked_eval h).next fun v => .signal (.jump hl v)

theorem linked_matchesCase (k : Option Method) (v candidate : Value) :
    (matchesCase k v candidate).Linked L Eq (matchesCase k v candidate) := by
  cases k with
  | none => exact .pure rfl
  | some k =>
    refine (linked_use _).next fun r => ?_
    cases r.bool? with
    | some b => exact .pure rfl
    | none => exact linked_fault _

theorem linked_anyMatches (k : Option Method) (v : Value) (h : List.Forall₂ L.node ns ms) :
    (anyMatches k v ns).Linked L Eq (anyMatches k v ms) := by
  induction h with
  | nil => exact .pure rfl
  | cons h _ ih =>
    refine (linked_eval h).next fun candidate => (linked_matchesCase k v candidate).next fun b => ?_
    exact linked_ite (.pure rfl) ih

theorem linked_selectCase (hC : L.Covers R) (k : Option Method) (v : Value)
    {cs ds : List SwitchCase} (h : List.Forall₂ (R on .switchCase) cs ds) :
    (selectCase k v cs).Linked L (Option.Rel L.node) (selectCase k v ds) := by
  induction h with
  | nil => exact .pure .none
  | cons h _ ih =>
    cases hC.compound h nofun with | switchCase id ht hb => ?_
    refine (linked_anyMatches k v (ht.imp fun _ _ => hC.node)).next fun b => ?_
    exact linked_ite (.pure (.some (hC.node hb))) ih

theorem linked_evalSwitch (hC : L.Covers R) {cs ds : List SwitchCase} {t : Ty} (hn : L.node n m)
    (hc : List.Forall₂ (R on .switchCase) cs ds) (hx : Option.Rel L.node x y) :
    (evalSwitch n cs x k t).Linked L Eq (evalSwitch m ds y k t) := by
  refine (linked_eval hn).next fun v => (linked_selectCase hC k v hc).bind fun a b hab => ?_
  have hbody : Option.Rel L.node (a.or x) (b.or y) := by
    cases hab with
    | none => exact hx
    | some h => exact .some h
  generalize a.or x = c, b.or y = d at hbody
  cases hbody with
  | none => exact .pure rfl
  | some h => exact (linked_eval h).next fun _ => .pure rfl

/-- What a handler binds. -/
theorem linked_bindings (hC : L.Covers R) {h h' : CatchClause}
    (hv : Option.Rel (R on .param) h.var h'.var) (e : Value) :
    L.Binds (Evaluator.bindings h e) (Evaluator.bindings h' e) := by
  unfold Evaluator.bindings
  generalize h.var = p, h'.var = q at hv
  cases hv with
  | none => exact .nil
  | some hpq => exact .cons ⟨(hC.param hpq).id, rfl⟩ .nil

theorem linked_accepts {h h' : CatchClause} {bs cs : Slots} (hb : L.Binds bs cs)
    (hf : Option.Rel L.node h.filter h'.filter) : (accepts h bs).Linked L Eq (accepts h' cs) := by
  unfold accepts
  generalize h.filter = x, h'.filter = y at hf
  cases hf with
  | none => exact .pure rfl
  | some hxy =>
    refine .attempt (.within (.bindings hb) (linked_eval hxy) fun _ => .pure rfl) fun c d hcd => ?_
    cases hcd with
    | value v => cases v <;> exact .pure rfl
    | thrown v => exact .pure rfl
    | jump hab v => exact .signal (.jump hab v)

theorem linked_handle (hC : L.Covers R) (e : Value) {hs hs' : List CatchClause}
    (h : List.Forall₂ (R on .catchClause) hs hs') (hx : Option.Rel L.node x y) :
    (handle e x hs).Linked L Eq (handle e y hs') := by
  induction h with
  | nil =>
    cases hx with
    | none => exact .signal (.thrown e)
    | some hxy => exact (linked_eval hxy).next fun _ => .signal (.thrown e)
  | @cons h _ _ _ hh _ ih =>
    cases hC.compound hh nofun with | @catchClause _ var filter body id hv hf hb => ?_
    have hbinds :
        L.Binds (Evaluator.bindings h e) (Evaluator.bindings (.mk id h.test var filter body) e) :=
      linked_bindings hC hv e
    refine linked_ite ?_ ih
    refine (linked_accepts hbinds (option_rel_mono hf fun _ _ => hC.node)).next fun b =>
      linked_ite ?_ ih
    exact .within (.handling e) (.within (.bindings hbinds) (linked_eval (hC.node hb)) fun _ =>
      .pure rfl)
      fun _ => .pure rfl

theorem linked_evalGuarded (hC : L.Covers R) {hs hs' : List CatchClause} {z z' : Option Node}
    (hn : R (.node n) (.node m)) (h : List.Forall₂ (R on .catchClause) hs hs')
    (hz : Option.Rel L.node z z')
    (hx : Option.Rel L.node x y) : (evalGuarded n hs z x).Linked L Eq (evalGuarded m hs' z' y) := by
  have hguard : (guard n hs x).Linked L Eq (guard m hs' y) := by
    refine .attempt (linked_eval (hC.node hn)) fun c d hcd => ?_
    cases hcd with
    | value v => exact .pure rfl
    | thrown e => exact linked_handle hC e h hx
    | jump hab v => exact .signal (.jump hab v)
  have hresult (v : Value) :
      (pure (n.ty.result v) : Plan Value).Linked L Eq (pure (m.ty.result v)) := by
    rw [hC.ty hn]
    exact .pure rfl
  cases hz with
  | none => exact hguard.next hresult
  | some hz => exact Linked.next (p := final _ _ _) (.final hguard hz fun _ => .pure rfl) hresult

/-! ### Calls, constructions and accesses -/

theorem linked_evalNew (hC : L.Covers R) {c d : Construction} (h : R (.new c) (.new d)) :
    (evalNew c).Linked L Eq (evalNew d) := by
  obtain ⟨id, q, hp, hd, -⟩ := hC.overNode h rfl
  cases q with | new args => ?_
  cases hd
  exact (linked_evalAll (hp.imp fun _ _ => hC.node)).next fun _ => linked_use _

theorem linked_newSized (e : Ty) (size : Value) :
    (newSized e size).Linked L Eq (newSized e size) := by
  unfold newSized
  split
  · exact linked_fault _
  · exact linked_ite (linked_fault _) (.act (.newArray e _) fun _ => .pure rfl)

theorem linked_evalNewArray (form : ArrayForm) (e : Ty) (h : List.Forall₂ L.node ns ms) :
    (evalNewArray form e ns).Linked L Eq (evalNewArray form e ms) := by
  refine (linked_evalAll h).next fun values => ?_
  split
  · exact .act (.newArray e _) fun _ => .pure rfl
  · exact linked_newSized e _
  · exact linked_fault _

theorem linked_evalIndex (i : Option Indexer) (h : L.node n m) (ha : List.Forall₂ L.node ns ms) :
    (evalIndex n i ns).Linked L Eq (evalIndex m i ms) := by
  refine (linked_eval h).next fun target => (linked_evalAll ha).next fun args => ?_
  dsimp only
  split
  · exact (linked_indexed _ target).next fun _ => linked_use _
  · exact (linked_element target _).next fun _ => linked_readElement _ _
  · exact linked_fatal _

theorem linked_addAll (hC : L.Covers R) (v : Value) {is js : List ElementInit}
    (h : List.Forall₂ (R on .elementInit) is js) : (addAll v is).Linked L Eq (addAll v js) := by
  induction h with
  | nil => exact .pure rfl
  | cons h _ ih =>
    cases hC.compound h nofun with | elementInit id ha => ?_
    exact (linked_evalAll (ha.imp fun _ _ => hC.node)).next fun _ => (linked_use _).next fun _ => ih

theorem linked_initialized (what : String) (k : Member) (target : Option Value) :
    (initialized what k target).Linked L Eq (initialized what k target) :=
  (linked_use _).next fun _ => linked_ite (linked_fault _) (.pure rfl)

mutual

theorem linked_bindMember (hC : L.Covers R) (target : Value) : {b c : MemberBinding} →
    R (.memberBinding b) (.memberBinding c) →
    (bindMember target b).Linked L Eq (bindMember target c)
  | .assign .., _, h => by
    cases hC.compound h nofun with | assign id hv => ?_
    exact (linked_eval (hC.node hv)).next fun v => .act (.use _) fun _ => .pure rfl
  | .nested .., _, h => by
    cases hC.compound h nofun with | nested id hb => ?_
    exact (linked_initialized _ _ _).next fun v => linked_bindAll hC v hb
  | .list .., _, h => by
    cases hC.compound h nofun with | list id hi => ?_
    exact (linked_initialized _ _ _).next fun v => linked_addAll hC v hi

theorem linked_bindAll (hC : L.Covers R) (target : Value) : {bs cs : List MemberBinding} →
    List.Forall₂ (R on .memberBinding) bs cs → (bindAll target bs).Linked L Eq (bindAll target cs)
  | [], _, .nil => .pure rfl
  | _ :: _, _, .cons h hs => (linked_bindMember hC target h).next fun _ =>
    linked_bindAll hC target hs

end

theorem linked_evalExtension (name : String) (h : Option.Rel L.node x y) :
    (evalExtension name x).Linked L Eq (evalExtension name y) := by
  cases h with
  | none => exact linked_fatal _
  | some h => exact linked_eval h

end Plan

/-- Related nodes, if they are no atoms, have linked plans. -/
theorem Link.Covers.plan {L : Link} {R : Item → Item → Prop} (hC : L.Covers R) {n m : Node}
    (h : R (.node n) (.node m)) (hn : n.isAtomic = false) : n.plan.Linked L Eq m.plan := by
  have each {ns ms : List Node} (h : List.Forall₂ (R on .node) ns ms) : List.Forall₂ L.node ns ms :=
    h.imp fun _ _ => hC.node
  have node? {x y : Option Node} (h : Option.Rel (R on .node) x y) : Option.Rel L.node x y :=
    option_rel_mono h fun _ _ => hC.node
  by_cases hwhole : n.isWhole = true
  · obtain ⟨id, x, k, t, rfl⟩ := Node.exists_quote hwhole hn
    obtain ⟨id', rfl⟩ := hC.quote h
    cases x with
    | none => exact Plan.linked_fatal _
    | some x => exact .pure rfl
  have hlambda := hC.node h
  obtain ⟨id, q, hp, hm, hw⟩ := hC.overNode h (Bool.eq_false_iff.mpr hwhole)
  subst hm
  cases n with
  | constant | param => cases hn
  | default => exact .pure rfl
  | binary id op l r k f t =>
    cases q with | binary l' r' g => ?_
    refine Plan.linked_evalBinary hC hp.1 hp.2.1 hp.2.2 fun hop => ?_
    rcases hop with rfl | ⟨a, rfl⟩ <;> cases hw with | some hkind => exact hkind
  | unary id op x k t =>
    cases q with | unary y => ?_
    have hop : op ≠ .quote := by
      rintro rfl
      exact hwhole rfl
    refine Plan.linked_evalUnary hC hop hp ?_
    cases op <;> exact hw
  | typeTest id test x t =>
    cases q with | typeTest x' => ?_
    exact (Plan.linked_eval (hC.node hp)).next fun _ => .pure rfl
  | conditional id test a b t =>
    cases q with | conditional test' a' b' => ?_
    exact Plan.linked_evalConditional (hC.node hp.1) (hC.node hp.2.1) (hC.node hp.2.2)
  | call id x k args =>
    cases q with | call x' args' => ?_
    refine (Plan.linked_receiver? (node? hp.1) _).next fun _ => ?_
    exact (Plan.linked_evalAll (each hp.2)).next fun _ => Plan.linked_use _
  | invoke id f args t =>
    cases q with | invoke f' args' => ?_
    refine (Plan.linked_eval (hC.node hp.1)).next fun _ =>
      (Plan.linked_evalAll (each hp.2)).next fun _ => ?_
    exact .act (.invoke _ _) fun _ => .pure rfl
  | new c =>
    cases q with | new args' => ?_
    exact Plan.linked_evalNew hC h
  | newArray id form e items =>
    cases q with | newArray items' => ?_
    exact Plan.linked_evalNewArray form e (each hp)
  | member id x k =>
    cases q with | member x' => ?_
    exact (Plan.linked_receiver? (node? hp) _).next fun _ => Plan.linked_use _
  | index id x i args t =>
    cases q with | index x' args' => ?_
    exact Plan.linked_evalIndex i (hC.node hp.1) (each hp.2)
  | lambda f =>
    cases q with | lambda body ps => ?_
    exact .act (.closure hlambda) fun _ => .pure rfl
  | block id vars body t =>
    cases q with | block vars' body' => ?_
    exact Plan.linked_evalBlock hC hp.1 hp.2
  | loop id body b c =>
    cases q with | loop b' c' body' => ?_
    exact .act (.loop (hC.node hp.2.2) hp.1 hp.2.1) fun _ => .pure rfl
  | label id l x =>
    cases q with | label l' x' => ?_
    exact Plan.linked_evalLabel hC hp.1 (node? hp.2)
  | goto id kind l x t =>
    cases q with | goto l' x' => ?_
    exact Plan.linked_evalGoto hp.1 (node? hp.2)
  | switch id v cs x k t =>
    cases q with | switch v' cs' x' => ?_
    exact Plan.linked_evalSwitch hC (hC.node hp.1) hp.2.1 (node? hp.2.2)
  | guarded id body hs fin fault =>
    cases q with | guarded body' hs' fin' fault' => ?_
    exact Plan.linked_evalGuarded hC hp.1 hp.2.1 (node? hp.2.2.1) (node? hp.2.2.2)
  | listInit id c inits =>
    cases q with | listInit c' inits' => ?_
    refine (Plan.linked_evalNew hC hp.1).next fun v => ?_
    exact (Plan.linked_addAll hC v hp.2).next fun _ => .pure rfl
  | memberInit id c bindings =>
    cases q with | memberInit c' bindings' => ?_
    refine (Plan.linked_evalNew hC hp.1).next fun v => ?_
    exact (Plan.linked_bindAll hC v hp.2).next fun _ => .pure rfl
  | extension id name t x hidden =>
    cases q with | extension x' => ?_
    exact Plan.linked_evalExtension name (node? hp)

end ExprTree
