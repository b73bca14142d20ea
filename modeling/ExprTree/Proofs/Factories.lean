import ExprTree.Build.Access
import ExprTree.Build.Control
import ExprTree.Build.Operator
import Mathlib.Data.List.Forall2

/-! Trees that the factories built, and what a factory that built a node has checked. -/
namespace ExprTree

/-! ### Nodes that a factory built -/

/-- The constructor call is what its factory returns. -/
def Construction.Made (c : Construction) : Prop := Build.construction c.id c.ctor c.args = .ok c

def SwitchCase.Made (c : SwitchCase) : Prop := Build.switchCase c.id c.tests c.body = .ok c

def CatchClause.Made (h : CatchClause) : Prop :=
  Build.catchClause h.id h.test h.var h.filter h.body = .ok h

def ElementInit.Made (i : ElementInit) : Prop := Build.elementInit i.id i.add i.args = .ok i

mutual

def MemberBinding.Made : MemberBinding → Prop
  | .assign id m v => Build.assignBinding id m v = .ok (.assign id m v)
  | .nested id m bs => Build.nestedBinding id m bs = .ok (.nested id m bs) ∧ bindingsMade bs
  | .list id m is => Build.listBinding id m is = .ok (.list id m is) ∧ ∀ i ∈ is, i.Made

def bindingsMade : List MemberBinding → Prop
  | [] => True
  | b :: bs => b.Made ∧ bindingsMade bs

end

/-- The node, with the parts of it that are not nodes, is what the factory of its kind returns for
its children and some type, where the factory is given one. -/
def Node.Made : Node → Prop
  | .constant id v t =>
    .constant id v t = Build.constant id v ∨ Build.constantTyped id v t = .ok (.constant id v t)
  | .default .. => True
  | .param p => Build.param p.id p.name p.ty = .ok p
  | .binary id op l r m f t => Build.binary id (.binary op) l r m f = .ok (.binary id op l r m f t)
  | .unary id op x m t => ∃ target, Build.unary id (.unary op) x target m = .ok (.unary id op x m t)
  | .typeTest id test x t => Build.typeTest id (.typeTest test) x t = .ok (.typeTest id test x t)
  | .conditional id test a b t =>
    ∃ ty, Build.conditional id test a b ty = .ok (.conditional id test a b t)
  | .call id x m args => Build.call id x m args = .ok (.call id x m args)
  | .invoke id f args t => Build.invoke id f args = .ok (.invoke id f args t)
  | .new c => c.Made
  | .newArray id form e items =>
    Build.newArray id (.newArray form) e items = .ok (.newArray id form e items)
  | .member id x m => Build.member id x m = .ok (.member id x m)
  | .index id x i args t => Build.index id x i args = .ok (.index id x i args t)
  | .lambda f => ∃ ret, Build.lambda f.id f.name f.body f.params ret = .ok f
  | .block id vars body t => ∃ ty, Build.block id vars body ty = .ok (.block id vars body t)
  | .loop id body b c => Build.loop id body b c = .ok (.loop id body b c)
  | .label id l x => Build.label id l x = .ok (.label id l x)
  | .goto id kind l x t => ∃ ty, Build.goto id kind l x ty = .ok (.goto id kind l x t)
  | .switch id v cases x m t =>
    (∀ c ∈ cases, c.Made) ∧ ∃ ty, Build.switch id v cases x m ty = .ok (.switch id v cases x m t)
  | .guarded id body handlers fin fault => (∀ h ∈ handlers, h.Made) ∧
    Build.guarded id body handlers fin fault = .ok (.guarded id body handlers fin fault)
  | .listInit id c inits =>
    c.Made ∧ (∀ i ∈ inits, i.Made) ∧ Build.listInit id c inits = .ok (.listInit id c inits)
  | .memberInit id c bs =>
    c.Made ∧ bindingsMade bs ∧ Build.memberInit id c bs = .ok (.memberInit id c bs)
  | .extension .. => True

namespace Build

variable {α β : Type}

/-! ### What the checks mean -/

@[simp] theorem bind_ok {x : Result α} {f : α → Result β} {b : β} :
    (x >>= f) = .ok b ↔ ∃ a, x = .ok a ∧ f a = .ok b := by
  cases x with
  | error e => simp [bind, Except.bind]
  | ok a => simp [bind, Except.bind]

@[simp] theorem pure_ok {a b : α} : (pure a : Result α) = .ok b ↔ a = b := by
  simp [pure, Except.pure]

@[simp] theorem map_ok {x : Result α} {f : α → β} {b : β} :
    f <$> x = .ok b ↔ ∃ a, x = .ok a ∧ f a = b := by
  cases x with
  | error e => simp [Functor.map, Except.map]
  | ok a => simp [Functor.map, Except.map]

@[simp] theorem require_ok {p : Bool} {e : BuildError} {u : Unit} : require p e = .ok u ↔ p := by
  cases p <;> simp [require]

@[simp] theorem checkAssignable_ok {context : String} {t u : Ty} {x : Unit} :
    checkAssignable context t u = .ok x ↔ t.accepts u := require_ok

theorem isBool_iff {t : Ty} : t.isBool ↔ t = .bool := by
  cases t <;> simp [Ty.isBool]

theorem isVoid_iff {t : Ty} : t.isVoid ↔ t = .void := by
  cases t <;> simp [Ty.isVoid]

@[simp] theorem checkBool_ok {context : String} {t : Ty} {x : Unit} :
    checkBool context t = .ok x ↔ t = .bool := require_ok.trans isBool_iff

/-- Every argument is storable in its parameter, and there are as many of both. -/
abbrev Storable (params : List Ty) (args : List Node) : Prop :=
  List.Forall₂ (fun p a => p.accepts a.ty) params args

@[simp] theorem checkArguments_ok {context : String} {ps : List Ty} {args : List Node} {x : Unit} :
    checkArguments context ps args = .ok x ↔ Storable ps args := by
  have heach (ps : List Ty) (args : List Node) (h : ps.length = args.length) :
      checkEach context ps args = .ok x ↔ Storable ps args := by
    induction ps generalizing args with
    | nil =>
      obtain rfl : args = [] := List.length_eq_zero_iff.mp h.symm
      simp [checkEach]
    | cons p ps ih =>
      cases args with
      | nil => simp at h
      | cons a as => simp [checkEach, ih as (by simpa using h)]
  constructor
  · intro h
    simp only [checkArguments, bind_ok, require_ok, beq_iff_eq, exists_const] at h
    exact (heach ps args h.1).mp h.2
  · intro h
    simp only [checkArguments, bind_ok, require_ok, beq_iff_eq, exists_const]
    exact ⟨h.length_eq, (heach ps args h.length_eq).mpr h⟩

@[simp] theorem checkOperatorMethod_ok {context : String} {m : Method} {args : List Node}
    {x : Unit} :
    checkOperatorMethod context m args = .ok x ↔ m.isStatic ∧ Storable m.params args := by
  simp [checkOperatorMethod]

/-- A branch completes with a value that fits, or not at all. -/
def FitsBranch (t : Ty) (n : Node) : Prop := t = .void ∨ diverges n ∨ t.accepts n.ty

@[simp] theorem checkBranch_ok {context : String} {t : Ty} {n : Node} {x : Unit} :
    checkBranch context t n = .ok x ↔ FitsBranch t n := by
  by_cases h : (t.isVoid || diverges n) = true
  · simp only [checkBranch, h, if_true, FitsBranch, true_iff]
    simpa [isVoid_iff, ← or_assoc] using Or.inl h
  · simp only [checkBranch, h, Bool.false_eq_true, if_false, checkAssignable_ok, FitsBranch]
    simp_all [isVoid_iff]

@[simp] theorem checkTarget_ok {n : Node} {x : Unit} : checkTarget n = .ok x ↔ n.isAssignable := by
  cases n <;> simp [checkTarget, Node.isAssignable]

@[simp] theorem checkComparer_ok {m : Method} {x : Unit} :
    checkComparer m = .ok x ↔ (m.isStatic ∧ m.params.length = 2) ∧ m.ret = .bool := by
  simp [checkComparer]

@[simp] theorem checkOperand_ok {kind : NodeKind} {accepted : Ty → Bool} {t : Ty} {x : Unit} :
    checkOperand kind accepted t = .ok x ↔ t = .object ∨ accepted t := by
  simp [checkOperand]

@[simp] theorem forM_ok {xs : List α} {f : α → Result Unit} {u : Unit} :
    forM xs f = .ok u ↔ ∀ x ∈ xs, f x = .ok () := by
  induction xs with
  | nil => simp
  | cons x xs ih =>
    rw [List.forM_cons, bind_ok]
    simp only [ih, List.mem_cons, forall_eq_or_imp]
    exact ⟨fun ⟨(), h⟩ => h, fun h => ⟨(), h⟩⟩

@[simp] theorem methodOr_none {args : List Node} {native : Result Ty} :
    methodOr none args native = native := rfl

@[simp] theorem methodOr_some {m : Method} {args : List Node} {native : Result Ty} {t : Ty} :
    methodOr (some m) args native = .ok t ↔ (m.isStatic ∧ Storable m.params args) ∧ m.ret = t := by
  simp [methodOr]

/-- A native operator gives what its left operand is, but for a plus with a text. -/
theorem arithType_ok {op : Arith} {l r t : Ty} (h : arithType op l r = .ok t) :
    (op = .add ∧ (l = .str ∨ r = .str) ∧ t = .str) ∨
      (t = l ∧ (op = .add → l ≠ .str ∧ (r = .object ∨ r.isNumeric))) := by
  unfold arithType at h
  split at h
  · rename_i hs
    cases h
    exact Or.inl ⟨hs.1, hs.2, rfl⟩
  · rename_i hs
    simp only [bind_ok, checkOperand_ok, exists_const, pure_ok] at h
    obtain ⟨_, hr, rfl⟩ := h
    refine Or.inr ⟨rfl, ?_⟩
    rintro rfl
    exact ⟨fun hl => hs ⟨rfl, Or.inl hl⟩, hr⟩

theorem comparisonType_ok {c : Comparison} {l r t : Ty} (h : comparisonType c l r = .ok t) :
    t = .bool := by
  cases c <;> simp_all [comparisonType]

/-- What a compound assignment computes natively, by its method, or by its method and its
conversion, may be stored where it goes. -/
theorem compoundType_ok {op : Arith} {l r : Node} {m : Option Method} {f : Option Lambda} {t : Ty}
    (h : binaryType (.compound op) l r m f = .ok t) : l.isAssignable ∧ t = l.ty ∧
      ((m = none ∧ ∃ t', arithType op l.ty r.ty = .ok t') ∨ ∃ k, m = some k ∧
        Storable k.params [l, r] ∧
        ((f = none ∧ k.ret = l.ty) ∨
          ∃ g p, f = some g ∧ g.params = [p] ∧ p.ty = k.ret ∧ l.ty.accepts g.ret)) := by
  simp only [binaryType, bind_ok, checkTarget_ok, exists_const, pure_ok] at h
  obtain ⟨has, _, h, rfl⟩ := h
  refine ⟨has, rfl, ?_⟩
  cases m <;> cases f <;> simp_all [checkCompound]

theorem arrayIndexType_ok {l r : Node} {m : Option Method} {f : Option Lambda} {t : Ty}
    (h : binaryType .arrayIndex l r m f = .ok t) :
    l.ty = .array t ∧ (r.ty.isInteger ∨ r.ty = .object) := by
  cases hl : l.ty with
  | array e =>
    simp only [binaryType, hl, bind_ok, require_ok, exists_const, pure_ok] at h
    exact ⟨by rw [h.2], by simpa using h.1⟩
  | _ => simp [binaryType, hl] at h

@[simp] theorem needTarget_ok {target : Option Ty} {what : String} {t : Ty} :
    needTarget target what = .ok t ↔ target = some t := by
  cases target <;> simp [needTarget]

/-- The type of a native unary operator is that of its operand. -/
theorem checkedType_ok {kind : NodeKind} {accepted : Ty → Bool} {s t : Ty}
    (h : (do checkOperand kind accepted s; return s) = .ok t) : t = s := by
  simp only [bind_ok, checkOperand_ok, exists_const, pure_ok] at h
  exact h.2.symm

theorem unaryArithType_ok {op : UnaryArith} {y : Node} {target : Option Ty} {m : Option Method}
    {t : Ty} (h : unaryType (.arith op) y target m = .ok t) (hl : op ≠ .arrayLength)
    (ho : ¬(op = .isTrue ∨ op = .isFalse)) :
    ∃ native, methodOr m [y] native = .ok t ∧ (native = .ok t → t = y.ty) := by
  cases op with
  | arrayLength => exact absurd rfl hl
  | isTrue => exact absurd (Or.inl rfl) ho
  | isFalse => exact absurd (Or.inr rfl) ho
  | _ => exact ⟨_, h, checkedType_ok⟩

theorem truthType_ok {op : UnaryArith} {y : Node} {target : Option Ty} {m : Option Method} {t : Ty}
    (h : unaryType (.arith op) y target m = .ok t)
    (ho : op = .isTrue ∨ op = .isFalse) : t = .bool := by
  rcases ho with rfl | rfl
  all_goals
    simp only [unaryType, bind_ok, pure_ok] at h
    obtain ⟨_, _, rfl⟩ := h
    rfl

/-- A conversion gives its target, which what its method gives may stand for. -/
theorem convertType_ok {op : UnaryOp} {y : Node} {target : Option Ty} {m : Option Method} {t : Ty}
    (ho : op = .convert ∨ op = .convertChecked) (h : unaryType op y target m = .ok t) :
    ∀ k ∈ m, Storable k.params [y] ∧ t.accepts k.ret := by
  rintro k rfl
  rcases ho with rfl | rfl
  all_goals
    simp only [unaryType, bind_ok, checkOperatorMethod_ok, checkAssignable_ok, exists_const,
      pure_ok] at h
    obtain ⟨u, _, hm, hu, rfl⟩ := h
    exact ⟨hm.2, hu⟩

theorem stepType_ok {op : UnaryOp} {y : Node} {target : Option Ty} {m : Option Method} {t : Ty}
    (ho : op.step?.isSome) (h : unaryType op y target m = .ok t) :
    y.isAssignable ∧ t = y.ty ∧ ∃ native, methodOr m [y] native = .ok y.ty := by
  cases op <;> cases ho
  all_goals
    simp only [unaryType, bind_ok, checkTarget_ok, require_ok, exists_const, pure_ok] at h
    obtain ⟨has, u, hm, hu, rfl⟩ := h
    obtain rfl := of_decide_eq_true hu
    exact ⟨has, rfl, _, hm⟩

/-- Without an indexer an array has one index. -/
theorem indexType_ok {x : Node} {i : Option Indexer} {args : List Node} {t : Ty}
    (h : indexType x i args = .ok t) : (∃ k, i = some k ∧ Storable k.params args ∧ t = k.item) ∨
      (i = none ∧ x.ty = .array t ∧ ∃ a, args = [a] ∧ a.ty.isInteger) := by
  cases i with
  | some i =>
    simp only [indexType, bind_ok, checkArguments_ok, exists_const, pure_ok] at h
    exact Or.inl ⟨i, rfl, h.1, h.2.symm⟩
  | none =>
    cases hx : x.ty with
    | array e =>
      simp only [indexType, hx] at h
      split at h
      · rename_i a
        simp only [bind_ok, require_ok, exists_const, pure_ok] at h
        exact Or.inr ⟨rfl, by rw [h.2], a, rfl, h.1⟩
      · cases h
    | _ => simp [indexType, hx] at h

/-! ### What is made of operands -/

theorem binary_shape {i : Nat} {l r n : Node} {m : Option Method} {f : Option Lambda}
    {op : BinaryOp} (h : Build.binary i (.binary op) l r m f = .ok n) :
    ∃ ty, n = .binary i op l r m f ty ∧ binaryType op l r m f = .ok ty := by
  simp only [Build.binary, bind_ok, pure_ok] at h
  obtain ⟨_, _, _, _, ty, hty, rfl⟩ := h
  exact ⟨ty, rfl, hty⟩

theorem unary_eq {i : Nat} {x : Node} {target : Option Ty} {m : Option Method} {op : UnaryOp}
    (ho : op ≠ .throw) :
    Build.unary i (.unary op) (some x) target m = (do
      require (m.isNone || takesUnaryMethod op) (.methodNotAllowed (.unary op))
      require (target.isNone || op.takesType)
        (.invalid "only conversions and throw take a target type")
      return .unary i op (some x) m (← unaryType op x target m)) := by
  cases op <;> first | rfl | exact absurd rfl ho

theorem unary_shape {i : Nat} {x n : Node} {target : Option Ty} {m : Option Method} {op : UnaryOp}
    (ho : op ≠ .throw) (h : Build.unary i (.unary op) (some x) target m = .ok n) :
    ∃ ty, n = .unary i op (some x) m ty ∧ unaryType op x target m = .ok ty := by
  simp only [unary_eq ho, bind_ok, pure_ok] at h
  obtain ⟨_, _, _, _, ty, hty, rfl⟩ := h
  exact ⟨ty, rfl, hty⟩

/-- The type that a conversion has been given is the type of the node. -/
theorem unaryType_target {op : UnaryOp} {x : Node} {target : Option Ty} {m : Option Method} {t : Ty}
    (h : unaryType op x target m = .ok t) (hop : op.takesType = true) : target = some t := by
  cases op <;> cases hop
  case convert | convertChecked =>
    cases m <;> simp_all [unaryType]
  all_goals simp_all [unaryType]

end Build

namespace Node

open Build

variable {id : Nat} {l r : Node} {m : Option Method} {f : Option Lambda} {t : Ty} {op : UnaryOp}
  {x : Option Node} {y : Node}

/-! ### What is known of a node that was built -/

theorem made_constant {v : Value} (h : (constant id v t).Made) :
    (v = .null ∧ t.isReference) ∨ t.accepts v.runtimeType := by
  rcases h with h | h
  · obtain ⟨-, -, rfl⟩ := constant.inj h
    exact Or.inr (Ty.accepts_self _)
  · unfold constantTyped at h
    cases v <;> simp_all

theorem made_binary {op : BinaryOp} (h : (binary id op l r m f t).Made) :
    binaryType op l r m f = .ok t := by
  obtain ⟨ty, hn, hty⟩ := binary_shape h
  obtain ⟨-, -, -, -, -, -, rfl⟩ := binary.inj hn
  exact hty

theorem made_unary (h : (unary id op x m t).Made) (ht : op ≠ .throw) :
    ∃ y, x = some y ∧ (m.isNone ∨ takesUnaryMethod op) ∧
      ∃ target, unaryType op y target m = .ok t := by
  obtain ⟨target, h⟩ := h
  cases x with
  | none => cases op <;> simp_all [Build.unary]
  | some y =>
    simp only [unary_eq ht, bind_ok, require_ok, exists_const, pure_ok] at h
    obtain ⟨hm, _, _, ht, heq⟩ := h
    obtain ⟨-, -, -, -, rfl⟩ := unary.inj heq
    exact ⟨y, rfl, by simpa using hm, target, ht⟩

theorem made_conditional {test : Node} (h : (conditional id test l r t).Made) :
    test.ty = .bool ∧ FitsBranch t l ∧ FitsBranch t r := by
  obtain ⟨ty, h⟩ := h
  simp only [Build.conditional, bind_ok, checkBool_ok, checkBranch_ok, exists_const, pure_ok] at h
  obtain ⟨ht, hl, hr, h⟩ := h
  simp_all

theorem made_call {args : List Node} {m : Method} (h : (call id x m args).Made) :
    Storable m.params args := by
  simp only [Made, Build.call, bind_ok, checkArguments_ok, exists_const] at h
  obtain ⟨_, _, ha, _⟩ := h
  exact ha

theorem made_invoke {args : List Node} (h : (invoke id l args t).Made) :
    ∃ ps, l.ty = .fn ps t ∧ Storable ps args := by
  cases hl : l.ty with
  | fn ps ret =>
    simp only [Made, Build.invoke, hl, Ty.signature?, bind_ok, checkArguments_ok, exists_const,
      pure_ok] at h
    obtain ⟨ha, h⟩ := h
    obtain ⟨-, -, -, rfl⟩ := invoke.inj h
    exact ⟨ps, rfl, ha⟩
  | _ => simp [Made, Build.invoke, hl, Ty.signature?] at h

theorem made_new {c : Construction} (h : c.Made) : Storable c.ctor.params c.args := by
  simp only [Construction.Made, construction, bind_ok, checkArguments_ok, exists_const] at h
  exact h.1

theorem made_items {e : Ty} {items : List Node} (h : (newArray id .items e items).Made) :
    ∀ i ∈ items, e.accepts i.ty := by
  simpa [Made, Build.newArray] using h

theorem made_bounds {e : Ty} {items : List Node} (h : (newArray id .bounds e items).Made) :
    ∀ i ∈ items, i.ty.isInteger := by
  simp only [Made, Build.newArray, bind_ok, List.forM_eq_forM, forM_ok, require_ok, exists_const]
    at h
  exact h.2.1

theorem made_index {i : Option Indexer} {args : List Node} (h : (index id l i args t).Made) :
    indexType l i args = .ok t := by
  simp only [Made, Build.index, bind_ok, pure_ok] at h
  obtain ⟨t', ht, h⟩ := h
  obtain ⟨-, -, -, -, rfl⟩ := index.inj h
  exact ht

theorem made_lambda {f : Lambda} (h : (lambda f).Made) :
    f.ret = .void ∨ f.ret.accepts f.body.ty := by
  obtain ⟨ret, h⟩ := h
  obtain ⟨id, name, body, ps, r⟩ := f
  cases ret with
  | none => simp_all [Build.lambda, Lambda.ret, Lambda.body]
  | some t =>
    by_cases hv : t.isVoid
    · simp_all [Build.lambda, isVoid_iff, Lambda.ret]
    · simp only [Build.lambda, hv, bind_ok, Bool.false_eq_true, if_false, checkAssignable_ok,
        exists_const, pure_ok, Lambda.mk.injEq] at h
      obtain ⟨_, _, h, _, _, _, _, rfl⟩ := h
      exact Or.inr h

/-- A block that is not empty completes with its last expression. -/
theorem made_block {vars : List Param} {body : List Node} {n : Node}
    (h : (block id vars body t).Made) (hn : body.getLast? = some n) : FitsBranch t n := by
  obtain ⟨ty, h⟩ := h
  cases ty with
  | none =>
    simp only [Build.block, hn, Option.map_some, Option.getD_some, Option.getD_none, bind_ok,
      pure_ok] at h
    simp_all [FitsBranch]
  | some t' =>
    simp only [Build.block, hn, bind_ok, checkBranch_ok, exists_const, Option.getD_some, pure_ok]
      at h
    obtain ⟨_, _, h, ht⟩ := h
    simp_all

theorem made_label {l : Label} (h : (label id l x).Made) : ∀ y ∈ x, FitsBranch l.ty y := by
  cases x <;> simp_all [Made, Build.label]

/-- A jump carries what its label may have. -/
theorem made_goto {kind : JumpKind} {l : Label} (h : (goto id kind l x t).Made) :
    (x = none ∧ l.ty = .void) ∨ ∃ y, x = some y ∧ l.ty.accepts y.ty := by
  obtain ⟨ty, h⟩ := h
  cases x with
  | none =>
    cases hl : l.ty.isVoid with
    | true => exact Or.inl ⟨rfl, isVoid_iff.mp hl⟩
    | false => simp [Build.goto, hl] at h
  | some y =>
    cases hl : l.ty.isVoid with
    | true => simp [Build.goto, hl] at h
    | false =>
      simp only [Build.goto, hl, bind_ok, checkAssignable_ok, exists_const] at h
      exact Or.inr ⟨y, rfl, h.1⟩

theorem made_switch {cases : List SwitchCase} (h : (switch id l cases x m t).Made) :
    (∀ k ∈ m, k.ret = .bool) ∧ (∀ c ∈ cases, FitsBranch t c.body) ∧ ∀ y ∈ x, FitsBranch t y := by
  obtain ⟨_, ty, h⟩ := h
  cases m <;> cases x
  all_goals
    simp only [Build.switch, bind_ok, List.forM_eq_forM, forM_ok, checkBranch_ok, exists_const,
      pure_ok] at h
    obtain ⟨_, _, _, hm, hc, hx, h⟩ := h
    obtain ⟨-, -, -, -, -, rfl⟩ := Node.switch.inj h
    simp_all

theorem made_clause {h : CatchClause} (hm : h.Made) :
    (∀ p ∈ h.var, p.ty.accepts h.test) ∧ ∀ f ∈ h.filter, f.ty = .bool := by
  obtain ⟨id, test, var, filter, body⟩ := h
  cases var <;> cases filter <;>
    simp_all [CatchClause.Made, catchClause, CatchClause.var, CatchClause.filter, CatchClause.test]

theorem made_guarded {handlers : List CatchClause} {fin fault : Option Node}
    (h : (guarded id l handlers fin fault).Made) :
    ∀ k ∈ handlers, k.Made ∧ FitsBranch l.ty k.body := by
  obtain ⟨hh, h⟩ := h
  simp only [Build.guarded, bind_ok, List.forM_eq_forM, forM_ok, checkBranch_ok, exists_const] at h
  obtain ⟨_, _, _, _, hb, _⟩ := h
  exact fun k hk => ⟨hh k hk, hb k hk⟩

theorem made_init {i : ElementInit} (h : i.Made) :
    i.add.isStatic = false ∧ Storable i.add.params i.args := by
  simp only [ElementInit.Made, elementInit, bind_ok, require_ok, checkArguments_ok, exists_const]
    at h
  exact ⟨by simpa using h.1, h.2.1⟩

end Node

end ExprTree
