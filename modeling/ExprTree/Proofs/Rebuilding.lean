import ExprTree.Proofs.Factories
import ExprTree.Proofs.Retyping

/-! What updating an item gives over parts of the same types, where it gives something: the item
over those parts, all else as it was. -/
namespace ExprTree

open scoped Function

namespace Build

variable {n m l l' r r' : Node} {ns ms : List Node} {f g : Option Lambda} {t u : Ty}
  {k : Option Method}

/-! ### Types that are inferred -/

theorem methodOr_unique {native : Result Ty} (h : methodOr k ns native = .ok t)
    (h' : methodOr k ms native = .ok u) : u = t := by
  cases k with
  | none => exact Except.ok.inj (h'.symm.trans h)
  | some k =>
    simp only [methodOr, bind_ok, pure_ok] at h h'
    obtain ⟨-, -, rfl⟩ := h
    obtain ⟨-, -, rfl⟩ := h'
    rfl

/-- The type of a binary node hangs on those of its operands. -/
theorem binaryType_unique {op : BinaryOp} (h : binaryType op l r k f = .ok t)
    (h' : binaryType op l' r' k g = .ok u) (hl : l'.ty = l.ty) (hr : r'.ty = r.ty)
    (hf : Option.Rel (fun f g => g.ret = f.ret) f g) : u = t := by
  cases op with
  | arith a =>
    rw [binaryType, hl, hr] at h'
    exact methodOr_unique h h'
  | compare c =>
    rw [binaryType, hl, hr] at h'
    exact methodOr_unique h h'
  | arrayIndex =>
    rw [binaryType, hl, hr] at h'
    exact Except.ok.inj (h'.symm.trans h)
  | coalesce =>
    cases hf with
    | none => simp_all [binaryType]
    | some hf => simp_all [binaryType]
  | _ => simp_all [binaryType]

theorem unaryMethodOr_unique {kind : NodeKind} {accepted : Ty → Bool}
    (h : unaryMethodOr kind accepted n k = .ok t) (h' : unaryMethodOr kind accepted m k = .ok u)
    (hm : m.ty = n.ty) : u = t := by
  rw [unaryMethodOr, hm] at h'
  exact methodOr_unique h h'

/-- The type of a unary node hangs on that of its operand where it is not given. -/
theorem unaryType_unique {op : UnaryOp} (h : unaryType op n none k = .ok t)
    (h' : unaryType op m none k = .ok u) (hm : m.ty = n.ty) : u = t := by
  cases op with
  | arith a =>
    cases a with
    | arrayLength =>
      rw [unaryType, hm] at h'
      exact Except.ok.inj (h'.symm.trans h)
    | isTrue | isFalse => simp_all [unaryType]
    | _ => exact unaryMethodOr_unique h h' hm
  | quote => cases n <;> cases m <;> simp_all [unaryType]
  | _ => simp_all [unaryType, needTarget]

/-- The type of an element is told by the array. -/
theorem indexType_unique {i : Option Indexer} (h : indexType n i ns = .ok t)
    (h' : indexType m i ms = .ok u) (hm : m.ty = n.ty) : u = t := by
  cases i with
  | some i => simp_all [indexType]
  | none =>
    simp only [indexType, hm] at h h'
    cases hty : n.ty with
    | array e =>
      rw [hty] at h h'
      rcases ns with _ | ⟨a, _ | _⟩ <;> rcases ms with _ | ⟨b, _ | _⟩ <;> simp_all
    | _ => simp_all

end Build

namespace Node

open Build

variable {T : Label → Label → Prop} {R : Item → Item → Prop} {n m : Node} {p : Parts n.shape}
  {fresh : Nat}

theorem ret_of_ty {f g : Lambda} (h : (Node.lambda g).ty = (Node.lambda f).ty) : g.ret = f.ret := by
  simp only [Node.ty, Lambda.ty, Signature.ty, Lambda.signature, Ty.fn.injEq] at h
  exact h.2

theorem rebuild_unary_over {id : Nat} {op : UnaryOp} {x y : Option Node} {k : Option Method}
    {t : Ty} (hn : (unary id op x k t).Made) (h : Option.Rel (fun n m => m.ty = n.ty) x y)
    (hm : (unary id op x k t).rebuild fresh (.unary y) = .ok m) : m = .unary fresh op y k t := by
  by_cases hop : op = .throw
  · subst hop
    cases y with
    | none =>
      simp only [rebuild, Build.unary, bind_ok, pure_ok] at hm
      obtain ⟨-, -, -, -, rfl⟩ := hm
      rfl
    | some y =>
      simp only [rebuild, Build.unary, bind_ok, pure_ok] at hm
      obtain ⟨-, -, -, -, rfl⟩ := hm
      rfl
  · obtain ⟨x, rfl, -, target, hu⟩ := made_unary hn hop
    cases h with
    | @some _ y hy =>
      have hne : (op == .throw) = false := beq_eq_false_iff_ne.mpr hop
      rw [rebuild, unary_eq hop, hne, Bool.or_false] at hm
      simp only [bind_ok, pure_ok] at hm
      obtain ⟨-, -, -, -, u, hu', rfl⟩ := hm
      cases htakes : op.takesType with
      | true =>
        rw [htakes, if_pos rfl] at hu'
        rw [Option.some.inj (unaryType_target hu' htakes)]
      | false =>
        rw [htakes, if_neg Bool.false_ne_true] at hu'
        rw [unaryType_untargeted hop htakes] at hu
        rw [unaryType_unique hu hu' hy]

theorem rebuild_invoke_over {id : Nat} {f g : Node} {args args' : List Node} {t : Ty}
    (hn : (invoke id f args t).Made) (hf : g.ty = f.ty)
    (hm : (invoke id f args t).rebuild fresh (.invoke g args') = .ok m) :
    m = .invoke fresh g args' t := by
  obtain ⟨ps, hty, -⟩ := made_invoke hn
  simp only [rebuild, Build.invoke, hf, hty, Ty.signature?, bind_ok, pure_ok] at hm
  obtain ⟨-, -, rfl⟩ := hm
  rfl

theorem rebuild_index_over {id : Nat} {x y : Node} {i : Option Indexer} {args args' : List Node}
    {t : Ty} (hn : (index id x i args t).Made) (hx : y.ty = x.ty)
    (hm : (index id x i args t).rebuild fresh (.index y args') = .ok m) :
    m = .index fresh y i args' t := by
  simp only [rebuild, Build.index, bind_ok, pure_ok] at hm
  obtain ⟨u, hu, rfl⟩ := hm
  rw [indexType_unique (made_index hn) hu hx]

/-- What is built over parts of the same types has the type of the node. -/
theorem rebuild_over (hn : n.Made) (hp : n.parts.Rel T R p)
    (hR : ∀ n m, R (.node n) (.node m) → m.ty = n.ty) :
    Meets True (· = n.over fresh p) (n.rebuild fresh p) := by
  have of_ok {x : Result Node} {m : Node} (h : ∀ y, x = .ok y → y = m) : Meets True (· = m) x := by
    cases x with
    | error e => trivial
    | ok y => exact h y rfl
  cases n <;> cases p
  case constant | default | param => rfl
  case binary id op l r k f t l' r' g =>
    obtain ⟨hl, hr, hf⟩ := hp
    simp only [Made, Build.binary, bind_ok, pure_ok] at hn
    obtain ⟨-, -, -, -, t, hu, heq⟩ := hn
    cases heq
    refine of_ok fun m hm => ?_
    simp only [rebuild, Build.binary, bind_ok, pure_ok] at hm
    obtain ⟨-, -, -, -, u, hu', rfl⟩ := hm
    have hret : Option.Rel (fun f g => g.ret = f.ret) f g :=
      option_rel_mono hf fun _ _ h => ret_of_ty (hR _ _ h)
    rw [binaryType_unique hu hu' (hR _ _ hl) (hR _ _ hr) hret]
    rfl
  case unary id op x k t y =>
    exact of_ok fun m =>
      rebuild_unary_over hn (option_rel_mono hp fun _ _ => hR _ _)
  case invoke => exact of_ok fun m => rebuild_invoke_over hn (hR _ _ hp.1)
  case index => exact of_ok fun m => rebuild_index_over hn (hR _ _ hp.1)
  -- No other type is inferred.
  all_goals
    refine (rebuild_overAs fresh _ _).mono ?_
    rintro _ ⟨_, rfl⟩
    rfl

/-- What a node writes to is a part of it. -/
theorem written_over (id : Nat) (hp : n.parts.Rel T R p) :
    Option.Rel (R on .node) n.written? (n.over id p).written? := by
  cases n <;> cases p
  case binary op _ _ _ _ _ _ _ _ => cases op <;> first | exact .none | exact .some hp.1
  case unary op _ _ _ _ => cases op <;> first | exact .none | exact hp
  all_goals exact .none

/-- What a factory lets a node write to is assignable. -/
theorem rebuild_writes (hm : n.rebuild fresh p = .ok m) (hover : m = n.over fresh p) :
    ∀ x ∈ m.written?, x.isAssignable = true := by
  subst hover
  cases n <;> cases p
  case binary id op l r k f t l' r' g =>
    simp only [rebuild, Build.binary, bind_ok] at hm
    obtain ⟨-, -, -, -, u, hu, -⟩ := hm
    cases op
    case assign | compound =>
      simp only [binaryType, bind_ok, checkTarget_ok] at hu
      obtain ⟨-, hl, -⟩ := hu
      rintro _ ⟨⟩
      exact hl
    all_goals rintro _ ⟨⟩
  case unary id op x k t y =>
    cases op
    case preIncrement | preDecrement | postIncrement | postDecrement =>
      rintro x hx
      obtain rfl : y = some x := hx
      simp only [rebuild, Build.unary, unaryType, bind_ok, checkTarget_ok] at hm
      obtain ⟨_, -, _, -, _, ⟨_, hx, -⟩, -⟩ := hm
      exact hx
    all_goals rintro _ ⟨⟩
  all_goals rintro _ ⟨⟩

end Node

/-! ### Items -/

section

variable {T : Label → Label → Prop} {R : Item → Item → Prop}

theorem eq_of_sameOption {α : Type} [Identified α] {S : α → α → Prop} {x y : Option α}
    (hS : ∀ a b, S a b → same a b = true → b = a) (h : Option.Rel S x y)
    (hs : same x y = true) : y = x := by
  cases h with
  | none => rfl
  | some h => exact congrArg some (hS _ _ h hs)

theorem eq_of_sameList {α : Type} [Identified α] {S : α → α → Prop} {xs ys : List α}
    (hS : ∀ a b, S a b → same a b = true → b = a) (h : List.Forall₂ S xs ys)
    (hs : same xs ys = true) : ys = xs := by
  induction h with
  | nil => rfl
  | cons h _ ih =>
    obtain ⟨hx, hxs⟩ := Bool.and_eq_true_iff.mp hs
    exact congrArg₂ List.cons (hS _ _ h hx) (ih hxs)

/-- Parts that all came back the same are the parts. -/
theorem Parts.Rel.eq_of_same {s : Shape} {p q : Parts s} (h : p.Rel T R q)
    (hT : ∀ k l, T k l → Identified.same k l = true → l = k)
    (hR : ∀ i j, R i j → i.same j = true → j = i)
    (hs : p.same q = true) : q = p := by
  have hnode := Item.Form.node.eq_of_same hR
  have hnew := Item.Form.new.eq_of_same hR
  have hlambda := Item.Form.lambda.eq_of_same hR
  have hparam := Item.Form.param.eq_of_same hR
  have hcase := Item.Form.switchCase.eq_of_same hR
  have hclause := Item.Form.catchClause.eq_of_same hR
  have hinit := Item.Form.elementInit.eq_of_same hR
  have hbinding := Item.Form.memberBinding.eq_of_same hR
  cases p <;> cases q <;> simp only [Parts.Rel] at h <;>
    simp only [Parts.same, Bool.and_eq_true] at hs
  case leaf => rfl
  case binary =>
    rw [hnode _ _ h.1 hs.1.1, hnode _ _ h.2.1 hs.1.2, eq_of_sameOption hlambda h.2.2 hs.2]
  case unary | member | extension => rw [eq_of_sameOption hnode h hs]
  case typeTest => rw [hnode _ _ h hs]
  case conditional => rw [hnode _ _ h.1 hs.1.1, hnode _ _ h.2.1 hs.1.2, hnode _ _ h.2.2 hs.2]
  case call => rw [eq_of_sameOption hnode h.1 hs.1, eq_of_sameList hnode h.2 hs.2]
  case invoke | index => rw [hnode _ _ h.1 hs.1, eq_of_sameList hnode h.2 hs.2]
  case new | newArray => rw [eq_of_sameList hnode h hs]
  case lambda => rw [hnode _ _ h.1 hs.1, eq_of_sameList hparam h.2 hs.2]
  case block => rw [eq_of_sameList hparam h.1 hs.1, eq_of_sameList hnode h.2 hs.2]
  case loop =>
    rw [hnode _ _ h.2.2 hs.1.1, eq_of_sameOption hT h.1 hs.1.2, eq_of_sameOption hT h.2.1 hs.2]
  case label | goto => rw [hT _ _ h.1 hs.1, eq_of_sameOption hnode h.2 hs.2]
  case switch =>
    rw [hnode _ _ h.1 hs.1.1, eq_of_sameList hcase h.2.1 hs.1.2, eq_of_sameOption hnode h.2.2 hs.2]
  case guarded =>
    rw [hnode _ _ h.1 hs.1.1.1, eq_of_sameList hclause h.2.1 hs.1.1.2,
      eq_of_sameOption hnode h.2.2.1 hs.1.2, eq_of_sameOption hnode h.2.2.2 hs.2]
  case listInit => rw [hnew _ _ h.1 hs.1, eq_of_sameList hinit h.2 hs.2]
  case memberInit => rw [hnew _ _ h.1 hs.1, eq_of_sameList hbinding h.2 hs.2]

/-- Where an answer that is the same is the item itself, and of its type, and as assignable only if
of its kind, an item that is updated is over the answers: kept, or built anew with a fresh id. -/
structure Item.Faithful (T : Label → Label → Prop) (R : Item → Item → Prop) : Prop where
  label {k l : Label} (h : T k l) (hs : Identified.same k l = true) : l = k
  eq {i j : Item} (h : R i j) (hs : i.same j = true) : j = i
  ty {n m : Node} (h : R (.node n) (.node m)) : m.ty = n.ty
  kind {n m : Node} (h : R (.node n) (.node m)) (hm : m.isAssignable = true) : m.kind = n.kind

theorem Item.over_kept {n : Node} (hp : n.parts.Rel T R n.parts) :
    Over T R (.node n) (.node n) := by
  obtain ⟨id, hid⟩ := n.exists_over
  have hw : Option.Rel (fun x y => y.kind = x.kind) n.written? (n.over id n.parts).written? := by
    rw [hid]
    cases n.written? <;> simp
  have hover := Over.node id hp hw
  rwa [hid] at hover

/-- What a factory accepts in the place of the target of a write was of that kind before. -/
theorem Item.over_rebuilt (hF : Faithful T R) {n m : Node} {p : Parts n.shape} {fresh : Nat}
    (hn : n.Made) (hp : n.parts.Rel T R p) (h : n.rebuild fresh p = .ok m) :
    Over T R (.node n) (.node m) := by
  have hover : Meets True (· = n.over fresh p) (n.rebuild fresh p) :=
    Node.rebuild_over hn hp fun _ _ => hF.ty
  rw [h] at hover
  obtain rfl : m = n.over fresh p := hover
  have hwrites := Node.rebuild_writes h rfl
  have hrel := Node.written_over fresh hp
  refine .node fresh hp ?_
  generalize n.written? = x, (n.over fresh p).written? = y at hrel hwrites
  cases hrel with
  | none => exact .none
  | some h => exact .some (hF.kind h (hwrites _ rfl))

theorem Item.Updated.over {i j : Item} {fresh : Nat} (h : i.Updated T R fresh (.ok j))
    (hF : Item.Faithful T R) (hsealed : ∀ n, i = .node n → n.isSealed = false) (hm : i.Made) :
    i.Over T R j ∧ (j = i ∨ j.identity = .node fresh) := by
  have hchoice {α : Type} {f : α → Item} {b : Bool} {x : α} {y : Build.Result α}
      (h : .ok j = (f <$> if b then .ok x else y)) : b = true ∧ j = f x ∨ b = false ∧
      ∃ a, y = .ok a ∧ j = f a := by
    cases b with
    | true => exact .inl ⟨rfl, Except.ok.inj h⟩
    | false =>
      obtain ⟨a, ha, hj⟩ := Build.map_ok.mp h.symm
      exact .inr ⟨rfl, a, ha, hj.symm⟩
  have hR (i j : Item) (h : R i j) (hs : i.same j = true) : j = i := hF.eq h hs
  have hnode := Form.node.eq_of_same hR
  have hparam := Form.param.eq_of_same hR
  generalize hout : (Except.ok j : Build.Result Item) = out at h
  cases h with
  | @node n parts hs hp =>
    rcases hchoice hout with ⟨hb, rfl⟩ | ⟨hb, m, hm', rfl⟩
    · obtain rfl := hp.eq_of_same (fun _ _ => hF.label) (fun _ _ => hF.eq) hb
      exact ⟨over_kept hp, .inl rfl⟩
    · have hnew := Node.rebuild_meets fresh hb
      rw [hm'] at hnew
      exact ⟨over_rebuilt hF hm hp hm', .inr hnew.identity⟩
  | hidden hs =>
    rw [hsealed _ rfl] at hs
    cases hs
  | @switchCase c tests body ht hb =>
    rcases hchoice hout with ⟨hs, rfl⟩ | ⟨-, d, hd, rfl⟩
    · obtain ⟨hts, hbs⟩ := Bool.and_eq_true_iff.mp hs
      obtain rfl := eq_of_sameList hnode ht hts
      obtain rfl := hnode _ _ hb hbs
      cases c
      exact ⟨.switchCase _ ht hb, .inl rfl⟩
    · simp only [Build.switchCase, Build.bind_ok, Build.pure_ok] at hd
      obtain ⟨-, -, rfl⟩ := hd
      exact ⟨.switchCase fresh ht hb, .inr rfl⟩
  | @catchClause h var filter body hv hf hb =>
    rcases hchoice hout with ⟨hs, rfl⟩ | ⟨-, d, hd, rfl⟩
    · simp only [Bool.and_eq_true] at hs
      obtain rfl := eq_of_sameOption hparam hv hs.1.1
      obtain rfl := eq_of_sameOption hnode hf hs.1.2
      obtain rfl := hnode _ _ hb hs.2
      cases h
      exact ⟨.catchClause _ hv hf hb, .inl rfl⟩
    · obtain ⟨-, -, -, rfl⟩ := Build.catchClause_ok.mp hd
      exact ⟨.catchClause fresh hv hf hb, .inr rfl⟩
  | @elementInit e args ha =>
    rcases hchoice hout with ⟨hs, rfl⟩ | ⟨-, d, hd, rfl⟩
    · obtain rfl := eq_of_sameList hnode ha hs
      cases e
      exact ⟨.elementInit _ ha, .inl rfl⟩
    · simp only [Build.elementInit, Build.bind_ok, Build.pure_ok] at hd
      obtain ⟨-, -, -, -, rfl⟩ := hd
      exact ⟨.elementInit fresh ha, .inr rfl⟩
  | @assign id m v v' hv =>
    rcases hchoice hout with ⟨hs, rfl⟩ | ⟨-, d, hd, rfl⟩
    · obtain rfl := hnode _ _ hv hs
      exact ⟨.assign id hv, .inl rfl⟩
    · simp only [Build.assignBinding, Build.bind_ok, Build.pure_ok] at hd
      obtain ⟨-, -, -, -, rfl⟩ := hd
      exact ⟨.assign fresh hv, .inr rfl⟩
  | @nested id m bs bs' hb =>
    rcases hchoice hout with ⟨hs, rfl⟩ | ⟨-, d, hd, rfl⟩
    · obtain rfl := eq_of_sameList (Form.memberBinding.eq_of_same hR) hb hs
      exact ⟨.nested id hb, .inl rfl⟩
    · simp only [Build.nestedBinding, Build.bind_ok, Build.pure_ok] at hd
      obtain ⟨-, -, rfl⟩ := hd
      exact ⟨.nested fresh hb, .inr rfl⟩
  | @list id m is is' hi =>
    rcases hchoice hout with ⟨hs, rfl⟩ | ⟨-, d, hd, rfl⟩
    · obtain rfl := eq_of_sameList (Form.elementInit.eq_of_same hR) hi hs
      exact ⟨.list id hi, .inl rfl⟩
    · cases hd
      exact ⟨.list fresh hi, .inr rfl⟩

end

end ExprTree
