import ExprTree.Proofs.Factories
import ExprTree.Proofs.Updating

/-! What the factories accept, they accept when every child is exchanged for one that is alike: of
the same type and, but for a constant, of the same kind and as assignable. -/
namespace ExprTree

open scoped Function

/-- What may stand in the place of a node as far as the factories check. -/
structure Node.Alike (n m : Node) : Prop where
  ty : m.ty = n.ty
  kind : n.kind ≠ .constant → m.kind = n.kind
  isAssignable : n.kind ≠ .constant → m.isAssignable = n.isAssignable

theorem Node.Alike.refl (n : Node) : n.Alike n := ⟨rfl, fun _ => rfl, fun _ => rfl⟩

namespace Build

variable {n m l l' r r' : Node} {ns ms : List Node} {x y : Option Node} {f g : Option Lambda}
  {t : Ty} {k : Option Method} {context : String}

/-! ### Checks -/

theorem checkEach_congr {ps : List Ty} (h : List.Forall₂ Node.Alike ns ms) :
    checkEach context ps ms = checkEach context ps ns := by
  induction h generalizing ps with
  | nil => rfl
  | cons h _ ih =>
    cases ps with
    | nil => rfl
    | cons p ps => rw [checkEach, checkEach, h.ty, ih]

theorem checkArguments_congr {ps : List Ty} (h : List.Forall₂ Node.Alike ns ms) :
    checkArguments context ps ms = checkArguments context ps ns := by
  rw [checkArguments, checkArguments, checkEach_congr h, h.length_eq]

theorem checkOperatorMethod_congr {k : Method} (h : List.Forall₂ Node.Alike ns ms) :
    checkOperatorMethod context k ms = checkOperatorMethod context k ns := by
  rw [checkOperatorMethod, checkOperatorMethod, checkArguments_congr h]

theorem methodOr_congr {native : Result Ty} (h : List.Forall₂ Node.Alike ns ms) :
    methodOr k ms native = methodOr k ns native := by
  cases k with
  | none => rfl
  | some k => rw [methodOr, methodOr, checkOperatorMethod_congr h]

theorem checkInstance_congr {member : String} {b : Bool} (h : Option.Rel Node.Alike x y) :
    checkInstance member b y = checkInstance member b x := by
  cases h <;> cases b <;> rfl

/-- A constant completes, so nothing is lost when it is exchanged. -/
theorem FitsBranch.alike (h : FitsBranch t n) (hm : n.Alike m) : FitsBranch t m := by
  rcases h with h | h | h
  · exact Or.inl h
  · refine Or.inr (Or.inl ?_)
    have hkind := hm.kind
    cases n <;> simp only [diverges, Bool.false_eq_true, beq_iff_eq] at h
    all_goals
      have hk := hkind (by rintro ⟨⟩)
      cases m <;> simp_all [Node.kind, diverges]
  · rw [← hm.ty] at h
    exact Or.inr (Or.inr h)

theorem checkTarget_alike (h : checkTarget n = .ok ()) (hm : n.Alike m) :
    checkTarget m = .ok () := by
  rw [checkTarget_ok] at h ⊢
  rw [hm.isAssignable ?_]
  · exact h
  · cases n <;> simp_all [Node.isAssignable, Node.kind]

/-! ### Types -/

theorem lambda_alike {f g : Lambda} (h : (Node.lambda f).Alike (.lambda g)) :
    g.params.map Param.ty = f.params.map Param.ty ∧ g.ret = f.ret := by
  have hty := h.ty
  simp only [Node.ty, Lambda.ty, Signature.ty, Lambda.signature, Ty.fn.injEq] at hty
  exact hty

theorem checkCompound_congr {a : Arith} (hl : l.Alike l') (hr : r.Alike r')
    (hf : Option.Rel (Node.Alike on .lambda) f g) :
    checkCompound a l' r' k g = checkCompound a l r k f := by
  have hargs : List.Forall₂ Node.Alike [l, r] [l', r'] := .cons hl (.cons hr .nil)
  cases k with
  | none =>
    simp only [checkCompound, hl.ty, hr.ty]
    cases hf <;> rfl
  | some k =>
    cases hf with
    | none => simp only [checkCompound, checkOperatorMethod_congr hargs, hl.ty]
    | some h =>
      obtain ⟨hparams, hret⟩ := lambda_alike h
      simp only [checkCompound, checkOperatorMethod_congr hargs, hl.ty, hparams, hret]

theorem binaryType_alike {op : BinaryOp} (h : binaryType op l r k f = .ok t) (hl : l.Alike l')
    (hr : r.Alike r') (hf : Option.Rel (Node.Alike on .lambda) f g) :
    binaryType op l' r' k g = .ok t := by
  have hargs : List.Forall₂ Node.Alike [l, r] [l', r'] := .cons hl (.cons hr .nil)
  cases op with
  | assign =>
    simp only [binaryType, bind_ok, pure_ok] at h ⊢
    obtain ⟨_, htarget, h⟩ := h
    rw [hl.ty, hr.ty]
    exact ⟨(), checkTarget_alike htarget hl, h⟩
  | compound a =>
    simp only [binaryType, bind_ok, pure_ok] at h ⊢
    obtain ⟨_, htarget, h⟩ := h
    rw [hl.ty, checkCompound_congr hl hr hf]
    exact ⟨(), checkTarget_alike htarget hl, h⟩
  | andAlso | orElse | arrayIndex => simpa only [binaryType, hl.ty, hr.ty] using h
  | coalesce =>
    cases hf with
    | none => simpa only [binaryType, hl.ty, hr.ty] using h
    | some hfg =>
      obtain ⟨hparams, hret⟩ := lambda_alike hfg
      have hleft : List.Forall₂ Node.Alike [l] [l'] := .cons hl .nil
      simpa only [binaryType, hl.ty, hparams, hret, checkArguments_congr hleft] using h
  | arith a | compare a => simpa only [binaryType, hl.ty, hr.ty, methodOr_congr hargs] using h

theorem unaryMethodOr_congr {kind : NodeKind} {accepted : Ty → Bool} (h : n.Alike m) :
    unaryMethodOr kind accepted m k = unaryMethodOr kind accepted n k := by
  rw [unaryMethodOr, unaryMethodOr, methodOr_congr (.cons h .nil), h.ty]

theorem unaryType_alike {op : UnaryOp} {target : Option Ty} (h : unaryType op n target k = .ok t)
    (hm : n.Alike m) : unaryType op m target k = .ok t := by
  have hargs : List.Forall₂ Node.Alike [n] [m] := .cons hm .nil
  cases op with
  | convert | convertChecked =>
    cases k with
    | none => exact h
    | some k => simpa only [unaryType, checkOperatorMethod_congr hargs] using h
  | typeAs | throw => exact h
  | unbox => simpa only [unaryType, hm.ty] using h
  | quote =>
    have hkind := hm.kind
    cases n with
    | lambda f =>
      have hk := hkind (by rintro ⟨⟩)
      cases m <;> cases hk
      exact h
    | _ => cases h
  | preIncrement | preDecrement | postIncrement | postDecrement =>
    simp only [unaryType, unaryMethodOr_congr hm, hm.ty, bind_ok] at h ⊢
    obtain ⟨_, htarget, h⟩ := h
    exact ⟨(), checkTarget_alike htarget hm, h⟩
  | arith a => cases a <;> simpa only [unaryType, unaryMethodOr_congr hm, hm.ty] using h

/-- Other types come from the operand. -/
theorem unaryType_untargeted {op : UnaryOp} {target : Option Ty} (hop : op ≠ .throw)
    (htakes : op.takesType = false) : unaryType op n target k = unaryType op n none k := by
  cases op with
  | arith a => cases a <;> rfl
  | throw => exact absurd rfl hop
  | convert | convertChecked | typeAs | unbox => cases htakes
  | _ => rfl

theorem indexType_congr {i : Option Indexer} (hn : n.Alike m) (h : List.Forall₂ Node.Alike ns ms) :
    indexType m i ms = indexType n i ns := by
  cases i with
  | some i => simp only [indexType, checkArguments_congr h]
  | none =>
    have hlength := h.length_eq
    simp only [indexType, hn.ty]
    cases h with
    | nil => rfl
    | cons h hs =>
      cases hs with
      | nil => simp only [h.ty]
      | cons _ _ => simp_all

/-! ### Factories with optional parts -/

theorem exists_unit {p : Unit → Prop} : (∃ u, p u) ↔ p () := by
  constructor
  · rintro ⟨_, h⟩
    exact h
  · exact fun h => ⟨(), h⟩

theorem lambda_ok {id : Nat} {name : Option String} {ps : List Param} {h : Lambda} :
    Build.lambda id name n ps (some t) = .ok h ↔
      checkUnique ps = .ok () ∧ (t = .void ∨ t.accepts n.ty = true) ∧ .mk id name n ps t = h := by
  simp only [Build.lambda, bind_ok, exists_unit]
  by_cases hv : t.isVoid = true
  · obtain rfl := isVoid_iff.mp hv
    simp [Ty.isVoid]
  · have hne : t ≠ .void := fun h => hv (isVoid_iff.mpr h)
    simp [hv, hne]

theorem block_ok {id : Nat} {vars : List Param} {b : Node} :
    Build.block id vars ns (some t) = .ok b ↔
      checkUnique vars = .ok () ∧ (∀ y ∈ ns.getLast?, FitsBranch t y) ∧
        .block id vars ns t = b := by
  cases hlast : ns.getLast? <;> simp [Build.block, hlast, checkBranch_ok, exists_unit]

theorem label_ok {id : Nat} {target : Label} {b : Node} :
    Build.label id target x = .ok b ↔ (∀ y ∈ x, FitsBranch target.ty y) ∧
      .label id target x = b := by
  cases x <;> simp [Build.label, checkBranch_ok]

theorem checkTests_ok {u : Unit} :
    checkTests t ns = .ok u ↔ ∀ n ∈ ns, (t.accepts n.ty || n.ty.accepts t) = true := by
  simp only [checkTests, List.forM_eq_forM, forM_ok, require_ok]

theorem switch_ok {id : Nat} {s : Node} {cs : List SwitchCase} :
    Build.switch id n cs x k (some t) = .ok s ↔ (!cs.isEmpty || x.isSome) = true ∧
      (∀ m ∈ k, checkComparer m = .ok ()) ∧
      (k = none → ∀ u ∈ cs.flatMap SwitchCase.tests,
        (n.ty.accepts u.ty || u.ty.accepts n.ty) = true) ∧
      (∀ c ∈ cs, FitsBranch t c.body) ∧ (∀ y ∈ x, FitsBranch t y) ∧ .switch id n cs x k t = s := by
  cases k <;> cases x <;> simp [Build.switch, checkTests_ok, checkBranch_ok]

theorem catchClause_ok {id : Nat} {h : CatchClause} {var : Option Param} :
    Build.catchClause id t var x n = .ok h ↔ t.isCatchable = true ∧
      (∀ p ∈ var, p.ty.accepts t = true) ∧
      (∀ y ∈ x, y.ty = .bool) ∧ .mk id t var x n = h := by
  cases var <;> cases x <;> simp [Build.catchClause]

end Build

/-- What may stand in the place of an item as far as the factories check. -/
def Item.Retyped : Item → Item → Prop
  | .node n, .node m => n.Alike m
  | .switchCase c, .switchCase d => List.Forall₂ Node.Alike c.tests d.tests ∧ c.body.Alike d.body
  | .catchClause h, .catchClause k => h.body.Alike k.body
  | .elementInit _, .elementInit _ => True
  | .memberBinding b, .memberBinding c => c.member = b.member
  | _, _ => False

namespace Node

open Build

/-- What is thrown is a reference. -/
theorem made_throw {id : Nat} {x : Option Node} {k : Option Method} {t : Ty}
    (h : (unary id .throw x k t).Made) : k = none ∧ ∀ y ∈ x, y.ty.isReference = true := by
  obtain ⟨target, h⟩ := h
  cases x <;> simp_all [Build.unary]

theorem made_unique {f : Lambda} (h : (lambda f).Made) : checkUnique f.params = .ok () := by
  obtain ⟨ret, h⟩ := h
  simp only [Build.lambda, bind_ok] at h
  obtain ⟨_, h, _⟩ := h
  exact h

theorem made_vars {id : Nat} {vars : List Param} {body : List Node} {t : Ty}
    (h : (block id vars body t).Made) : checkUnique vars = .ok () := by
  obtain ⟨ty, h⟩ := h
  simp only [Build.block, bind_ok] at h
  obtain ⟨_, h, _⟩ := h
  exact h

theorem made_tests {id : Nat} {v : Node} {cs : List SwitchCase} {x : Option Node}
    {k : Option Method} {t : Ty} (h : (switch id v cs x k t).Made) :
    (!cs.isEmpty || x.isSome) = true ∧
      (∀ m ∈ k, checkComparer m = .ok ()) ∧
      (k = none → ∀ u ∈ cs.flatMap SwitchCase.tests,
        (v.ty.accepts u.ty || u.ty.accepts v.ty) = true) := by
  obtain ⟨-, ty, h⟩ := h
  cases k with
  | none =>
    simp only [Build.switch, bind_ok, require_ok, checkTests_ok] at h
    obtain ⟨_, hne, _, htests, -⟩ := h
    exact ⟨hne, by simp, fun _ => htests⟩
  | some m =>
    simp only [Build.switch, bind_ok, require_ok] at h
    obtain ⟨_, hne, _, hchecked, -⟩ := h
    exact ⟨hne, by simpa using hchecked, by simp⟩

theorem forall_related {α : Type} {S : α → α → Prop} {P Q : α → Prop} {xs ys : List α}
    (h : List.Forall₂ S xs ys) (hS : ∀ x y, S x y → P x → Q y)
    (hP : ∀ x ∈ xs, P x) : ∀ y ∈ ys, Q y := by
  induction h with
  | nil => exact nofun
  | cons h _ ih =>
    rw [List.forall_mem_cons] at hP ⊢
    exact ⟨hS _ _ h hP.1, ih hP.2⟩

theorem forall_optional {α : Type} {S : α → α → Prop} {P Q : α → Prop} {x y : Option α}
    (h : Option.Rel S x y) (hS : ∀ a b, S a b → P a → Q b) (hP : ∀ a ∈ x, P a) : ∀ b ∈ y, Q b := by
  cases h with
  | none => simp
  | some h => simpa using hS _ _ h (hP _ rfl)

theorem tests_alike {cs ds : List SwitchCase}
    (h : List.Forall₂ (Item.Retyped on .switchCase) cs ds) :
    List.Forall₂ Alike (cs.flatMap SwitchCase.tests) (ds.flatMap SwitchCase.tests) := by
  induction h with
  | nil => exact .nil
  | cons h _ ih =>
    rw [List.flatMap_cons, List.flatMap_cons]
    exact List.rel_append h.1 ih

theorem getLast?_alike {ns ms : List Node} (h : List.Forall₂ Alike ns ms) :
    Option.Rel Alike ns.getLast? ms.getLast? := by
  induction h with
  | nil => exact .none
  | cons h hs ih =>
    cases hs with
    | nil => exact .some h
    | cons _ _ => simpa only [List.getLast?_cons_cons] using ih

theorem rebuild_unary {id fresh : Nat} {op : UnaryOp} {x y : Option Node} {k : Option Method}
    {t : Ty} (hn : (unary id op x k t).Made) (h : Option.Rel Alike x y) :
    (unary id op x k t).rebuild fresh (.unary y) = .ok (.unary fresh op y k t) := by
  by_cases hop : op = .throw
  · subst hop
    obtain ⟨rfl, href⟩ := made_throw hn
    cases h with
    | none => rfl
    | some hx =>
      have hy := href _ rfl
      rw [← hx.ty] at hy
      simp only [rebuild, Build.unary, hy]
      rfl
  · obtain ⟨x, rfl, hmethod, target, hu⟩ := made_unary hn hop
    cases h with
    | some hx =>
      have hu' := unaryType_alike hu hx
      have hmethod' : (k.isNone || takesUnaryMethod op) = true := by simpa using hmethod
      have hne : (op == .throw) = false := beq_eq_false_iff_ne.mpr hop
      -- The type is given again where it was given at first, and inferred again elsewhere.
      cases htakes : op.takesType with
      | true =>
        rw [unaryType_target hu' htakes] at hu'
        simp only [rebuild, htakes, Bool.true_or, if_true, unary_eq hop, hmethod', hu',
          Bool.or_true]
        rfl
      | false =>
        rw [unaryType_untargeted hop htakes] at hu'
        simp only [rebuild, htakes, hne, Bool.or_self, Bool.false_eq_true, if_false, unary_eq hop,
          hmethod', hu', Option.isNone_none, Bool.true_or]
        rfl

theorem rebuild_switch {id fresh : Nat} {v v' : Node} {cs cs' : List SwitchCase}
    {x x' : Option Node} {k : Option Method} {t : Ty} (hn : (switch id v cs x k t).Made)
    (hv : v.Alike v') (hc : List.Forall₂ (Item.Retyped on .switchCase) cs cs')
    (hx : Option.Rel Alike x x') :
    (switch id v cs x k t).rebuild fresh (.switch v' cs' x') = .ok
      (.switch fresh v' cs' x' k t) := by
  obtain ⟨-, hcs, hxs⟩ := made_switch hn
  obtain ⟨hne, hk, htests⟩ := made_tests hn
  have hempty : cs'.isEmpty = cs.isEmpty := by cases hc <;> rfl
  have hsome : x'.isSome = x.isSome := by cases hx <;> rfl
  rw [rebuild, switch_ok, hempty, hsome]
  refine ⟨hne, hk, fun hnone => ?_, forall_related hc (fun _ _ h hfits => hfits.alike h.2) hcs, ?_,
    rfl⟩
  · refine forall_related (tests_alike hc) (fun _ _ h ht => ?_) (htests hnone)
    rw [hv.ty, h.ty]
    exact ht
  · exact forall_optional hx (fun _ _ h hfits => hfits.alike h) hxs

section

variable {id fresh : Nat} {n m : Node} {ns ms : List Node} {x y : Option Node} {k : Option Method}
  {t : Ty}

theorem rebuild_binary {op : BinaryOp} {l r l' r' : Node} {f g : Option Lambda}
    (hn : (binary id op l r k f t).Made) (hl : l.Alike l') (hr : r.Alike r')
    (hf : Option.Rel (Alike on .lambda) f g) :
    (binary id op l r k f t).rebuild fresh (.binary l' r' g) = .ok
      (.binary fresh op l' r' k g t) := by
  have hg : g.isNone = f.isNone := by cases hf <;> rfl
  simp only [Made, Build.binary, bind_ok, pure_ok] at hn
  obtain ⟨_, hconv, _, hmethod, u, hu, heq⟩ := hn
  cases heq
  simp only [rebuild, Build.binary, bind_ok, pure_ok, hg]
  exact ⟨_, hconv, _, hmethod, t, binaryType_alike hu hl hr hf, rfl⟩

theorem rebuild_conditional {test test' a a' b b' : Node} (hn : (conditional id test a b t).Made)
    (ht : test.Alike test') (ha : a.Alike a') (hb : b.Alike b') :
    (conditional id test a b t).rebuild fresh (.conditional test' a' b') =
      .ok (.conditional fresh test' a' b' t) := by
  obtain ⟨htest, hta, htb⟩ := made_conditional hn
  simp only [rebuild, Build.conditional, bind_ok, checkBool_ok, checkBranch_ok,
    exists_const, pure_ok]
  exact ⟨ht.ty.trans htest, hta.alike ha, htb.alike hb, rfl⟩

theorem rebuild_call {c : Method} (hn : (call id x c ns).Made) (hx : Option.Rel Alike x y)
    (ha : List.Forall₂ Alike ns ms) :
    (call id x c ns).rebuild fresh (.call y ms) = .ok (.call fresh y c ms) := by
  simp only [Made, Build.call, bind_ok, pure_ok] at hn
  obtain ⟨_, hinstance, _, hargs, _⟩ := hn
  simp only [rebuild, Build.call, bind_ok, pure_ok]
  rw [checkInstance_congr hx, checkArguments_congr ha]
  exact ⟨_, hinstance, _, hargs, trivial⟩

theorem rebuild_invoke (hn : (invoke id n ns t).Made) (hf : n.Alike m)
    (ha : List.Forall₂ Alike ns ms) :
    (invoke id n ns t).rebuild fresh (.invoke m ms) = .ok (.invoke fresh m ms t) := by
  obtain ⟨ps, hty, hargs⟩ := made_invoke hn
  simp only [rebuild, Build.invoke, hf.ty, hty, Ty.signature?, checkArguments_congr ha, bind_ok,
    checkArguments_ok, exists_const, pure_ok]
  exact ⟨hargs, trivial⟩

theorem rebuild_new {c : Construction} (hn : (new c).Made) (ha : List.Forall₂ Alike c.args ms) :
    (new c).rebuild fresh (.new ms) = .ok (.new (.mk fresh c.ctor ms)) := by
  have hargs := made_new hn
  have hc : construction fresh c.ctor ms = .ok (.mk fresh c.ctor ms) := by
    simp only [construction, checkArguments_congr ha, bind_ok, checkArguments_ok,
      exists_const, pure_ok]
    exact ⟨hargs, trivial⟩
  rw [rebuild, hc]
  rfl

theorem rebuild_newArray {form : ArrayForm} (hn : (newArray id form t ns).Made)
    (ha : List.Forall₂ Alike ns ms) :
    (newArray id form t ns).rebuild fresh (.newArray ms) = .ok (.newArray fresh form t ms) := by
  cases form with
  | items =>
    have hitems : ∀ i ∈ ms, t.accepts i.ty :=
      forall_related ha (fun _ _ h ha => by rw [h.ty]; exact ha) (made_items hn)
    simp only [rebuild, Build.newArray, List.forM_eq_forM, bind_ok, forM_ok, checkAssignable_ok,
      exists_const, pure_ok]
    exact ⟨hitems, trivial⟩
  | bounds =>
    have hitems : ∀ i ∈ ms, i.ty.isInteger :=
      forall_related ha (fun _ _ h ha => by rw [h.ty]; exact ha) (made_bounds hn)
    simp only [Made, Build.newArray, bind_ok] at hn
    obtain ⟨_, hne, _⟩ := hn
    have hempty : ms.isEmpty = ns.isEmpty := by cases ha <;> rfl
    simp only [rebuild, Build.newArray, hempty, hne, List.forM_eq_forM, bind_ok, forM_ok,
      require_ok, exists_const, pure_ok]
    exact ⟨trivial, hitems, trivial⟩

theorem rebuild_member {c : Member} (hn : (member id x c).Made) (hx : Option.Rel Alike x y) :
    (member id x c).rebuild fresh (.member y) = .ok (.member fresh y c) := by
  simp only [Made, Build.member, bind_ok, pure_ok] at hn
  obtain ⟨_, hinstance, _⟩ := hn
  simp only [rebuild, Build.member, bind_ok, pure_ok]
  rw [checkInstance_congr hx]
  exact ⟨_, hinstance, trivial⟩

theorem rebuild_index {c : Option Indexer} (hn : (index id n c ns t).Made) (hx : n.Alike m)
    (ha : List.Forall₂ Alike ns ms) :
    (index id n c ns t).rebuild fresh (.index m ms) = .ok (.index fresh m c ms t) := by
  simp only [rebuild, Build.index, indexType_congr hx ha, made_index hn, bind_ok, pure_ok]
  exact ⟨t, rfl, rfl⟩

theorem rebuild_lambda {f : Lambda} {ps : List Param} (hn : (lambda f).Made) (hx : f.body.Alike m)
    (hu : checkUnique ps = .ok ()) :
    (lambda f).rebuild fresh (.lambda m ps) = .ok (.lambda (.mk fresh f.name m ps f.ret)) := by
  rw [rebuild, lambda_ok.mpr ⟨hu, ?_, rfl⟩]
  · rfl
  · rw [hx.ty]
    exact made_lambda hn

theorem rebuild_block {vars vars' : List Param} (hn : (block id vars ns t).Made)
    (hx : List.Forall₂ Alike ns ms) (hu : checkUnique vars' = .ok ()) :
    (block id vars ns t).rebuild fresh (.block vars' ms) = .ok (.block fresh vars' ms t) := by
  rw [rebuild, block_ok]
  have hlast :=
    forall_optional (getLast?_alike hx) (fun _ _ h hfits => hfits.alike h) fun _ => made_block hn
  exact ⟨hu, hlast, rfl⟩

theorem rebuild_loop {T : Label → Label → Prop} {b c b' c' : Option Label}
    (hn : (loop id n b c).Made) (hT : ∀ k l, T k l → l.ty = k.ty) (hc : Option.Rel T c c') :
    (loop id n b c).rebuild fresh (.loop b' c' m) = .ok (.loop fresh m b' c') := by
  simp only [Made, Build.loop] at hn
  cases hc with
  | none => rfl
  | some h => simp_all [rebuild, Build.loop, hT _ _ h]

theorem rebuild_label {l l' : Label} (hn : (label id l x).Made) (hl : l'.ty = l.ty)
    (hx : Option.Rel Alike x y) :
    (label id l x).rebuild fresh (.label l' y) = .ok (.label fresh l' y) := by
  rw [rebuild, label_ok, hl]
  exact ⟨forall_optional hx (fun _ _ h hfits => hfits.alike h) (made_label hn), rfl⟩

theorem rebuild_goto {kind : JumpKind} {l l' : Label} (hn : (goto id kind l x t).Made)
    (hl : l'.ty = l.ty) (hx : Option.Rel Alike x y) :
    (goto id kind l x t).rebuild fresh (.goto l' y) = .ok (.goto fresh kind l' y t) := by
  obtain ⟨ty, hn⟩ := hn
  cases hx with
  | none => cases hv : l.ty.isVoid <;> simp_all [rebuild, Build.goto]
  | some hx => cases hv : l.ty.isVoid <;> simp_all [rebuild, Build.goto, hx.ty]

theorem rebuild_guarded {hs hs' : List CatchClause} {fin fin' fault fault' : Option Node}
    (hn : (guarded id n hs fin fault).Made) (hx : n.Alike m)
    (hh : List.Forall₂ (Item.Retyped on .catchClause) hs hs') (hf : Option.Rel Alike fin fin')
    (hg : Option.Rel Alike fault fault') :
    (guarded id n hs fin fault).rebuild fresh (.guarded m hs' fin' fault') =
      .ok (.guarded fresh m hs' fin' fault') := by
  have hbodies := made_guarded hn
  have hempty : hs'.isEmpty = hs.isEmpty := by cases hh <;> rfl
  have hfin : fin'.isNone = fin.isNone ∧ fin'.isSome = fin.isSome := by
    cases hf <;> exact ⟨rfl, rfl⟩
  have hfault : fault'.isNone = fault.isNone ∧ fault'.isSome = fault.isSome := by
    cases hg <;> exact ⟨rfl, rfl⟩
  obtain ⟨-, hn⟩ := hn
  simp only [Build.guarded, bind_ok] at hn
  obtain ⟨_, hone, _, hsome, -⟩ := hn
  have hfits : ∀ h ∈ hs', FitsBranch m.ty h.body := by
    rw [hx.ty]
    exact forall_related hh (fun _ _ hk hfits => hfits.2.alike hk) hbodies
  simp only [rebuild, Build.guarded, hempty, hfin, hfault, hone, hsome, bind_ok, List.forM_eq_forM,
    forM_ok, checkBranch_ok, exists_const, pure_ok]
  exact ⟨trivial, trivial, hfits, trivial⟩

theorem rebuild_listInit {c c' : Construction} {is is' : List ElementInit}
    (hn : (listInit id c is).Made) (hi : is'.length = is.length) :
    (listInit id c is).rebuild fresh (.listInit c' is') = .ok (.listInit fresh c' is') := by
  simp only [Made, Build.listInit, bind_ok, pure_ok] at hn
  obtain ⟨-, -, _, hne, -⟩ := hn
  have hempty : is'.isEmpty = is.isEmpty := by cases is <;> cases is' <;> simp_all
  simp only [rebuild, Build.listInit, hempty, bind_ok, pure_ok]
  exact ⟨_, hne, trivial⟩

theorem rebuild_memberInit {c c' : Construction} {bs bs' : List MemberBinding}
    (hn : (memberInit id c bs).Made) (hb : List.Forall₂ (Item.Retyped on .memberBinding) bs bs') :
    (memberInit id c bs).rebuild fresh (.memberInit c' bs') = .ok (.memberInit fresh c' bs') := by
  simp only [Made, Build.memberInit, bind_ok, pure_ok] at hn
  obtain ⟨-, -, _, hdistinct, -⟩ := hn
  have hmembers : bs'.map (fun b => b.member.id) = bs.map fun b => b.member.id := by
    clear hdistinct
    induction hb with
    | nil => rfl
    | cons h _ ih => rw [List.map_cons, List.map_cons, ih, show _ = _ from h]
  simp only [rebuild, Build.memberInit, hmembers, bind_ok, pure_ok]
  exact ⟨_, hdistinct, trivial⟩

end

/-- Over parts of the same types the node has the type that it had. -/
theorem over_ty {T : Label → Label → Prop} {R : Item → Item → Prop} {n : Node} {p : Parts n.shape}
    {id : Nat} (hp : n.parts.Rel T R p) (hT : ∀ k l, T k l → l.ty = k.ty)
    (hR : ∀ n m, R (.node n) (.node m) → m.ty = n.ty) : (n.over id p).ty = n.ty := by
  cases n <;> cases p
  case loop b c body b' c' body' =>
    obtain ⟨hb, -⟩ := hp
    cases hb with
    | none => rfl
    | some h => exact hT _ _ h
  case label => exact hT _ _ hp.1
  case guarded body _ _ _ body' _ _ _ => exact hR body body' hp.1
  case listInit c _ c' _ | memberInit c _ c' _ => exact hR (.new c) (.new c') hp.1
  case lambda f body ps =>
    obtain ⟨-, hps⟩ := hp
    have htypes : ps.map Param.ty = f.params.map Param.ty := by
      generalize f.params = qs at hps
      induction hps with
      | nil => rfl
      | cons h _ ih => exact congrArg₂ List.cons (hR _ _ h) ih
    exact congrArg (Signature.ty ⟨·, f.ret⟩) htypes
  all_goals rfl

/-- Rebuilt over children that are alike, with the parameters still unique, a node that a factory
built is accepted again. -/
theorem rebuild_alike {T : Label → Label → Prop} (fresh : Nat) {n : Node} {p : Parts n.shape}
    (hn : n.Made) (hT : ∀ k l, T k l → l.ty = k.ty) (hp : n.parts.Rel T Item.Retyped p)
    (hu : checkUnique n.parts.params = .ok () → checkUnique p.params = .ok ()) :
    n.rebuild fresh p = .ok (n.over fresh p) := by
  cases n with
  | constant | default | param => rfl
  | binary id op l r k f t =>
    cases p with | binary l' r' g => ?_
    exact rebuild_binary hn hp.1 hp.2.1 hp.2.2
  | unary id op x k t =>
    cases p with | unary y => ?_
    exact rebuild_unary hn hp
  | typeTest id test x t =>
    cases p with | typeTest x' => ?_
    rfl
  | conditional id test a b t =>
    cases p with | conditional test' a' b' => ?_
    exact rebuild_conditional hn hp.1 hp.2.1 hp.2.2
  | call id x k args =>
    cases p with | call x' args' => ?_
    exact rebuild_call hn hp.1 hp.2
  | invoke id f args t =>
    cases p with | invoke f' args' => ?_
    exact rebuild_invoke hn hp.1 hp.2
  | new c =>
    cases p with | new args' => ?_
    exact rebuild_new hn hp
  | newArray id form e args =>
    cases p with | newArray args' => ?_
    exact rebuild_newArray hn hp
  | member id x k =>
    cases p with | member x' => ?_
    exact rebuild_member hn hp
  | index id x k args t =>
    cases p with | index x' args' => ?_
    exact rebuild_index hn hp.1 hp.2
  | lambda f =>
    cases p with | lambda body' ps' => ?_
    exact rebuild_lambda hn hp.1 (hu (made_unique hn))
  | block id vars body t =>
    cases p with | block vars' body' => ?_
    exact rebuild_block hn hp.2 (hu (made_vars hn))
  | loop id body b c =>
    cases p with | loop b' c' body' => ?_
    exact rebuild_loop hn hT hp.2.1
  | label id l x =>
    cases p with | label l' x' => ?_
    exact rebuild_label hn (hT _ _ hp.1) hp.2
  | goto id kind l x t =>
    cases p with | goto l' x' => ?_
    exact rebuild_goto hn (hT _ _ hp.1) hp.2
  | switch id v cs x k t =>
    cases p with | switch v' cs' x' => ?_
    exact rebuild_switch hn hp.1 hp.2.1 hp.2.2
  | guarded id body hs fin fault =>
    cases p with | guarded body' hs' fin' fault' => ?_
    exact rebuild_guarded hn hp.1 hp.2.1 hp.2.2.1 hp.2.2.2
  | listInit id c is =>
    cases p with | listInit c' is' => ?_
    exact rebuild_listInit hn hp.2.length_eq.symm
  | memberInit id c bs =>
    cases p with | memberInit c' bs' => ?_
    exact rebuild_memberInit hn hp.2
  | extension id name t x isSealed =>
    cases p with | extension x' => ?_
    rfl

end Node

/-- The item is what its factory returns. -/
def Item.Made : Item → Prop
  | .node n => n.Made
  | .switchCase c => c.Made
  | .catchClause h => h.Made
  | .elementInit i => i.Made
  | .memberBinding b => b.Made

namespace Item

open Build

variable {T : Label → Label → Prop} {R : Item → Item → Prop} {i : Item} {fresh : Nat}
  {out : Result Item}

theorem Retyped.refl (i : Item) : i.Retyped i := by
  cases i with
  | node n => exact Node.Alike.refl n
  | switchCase c => exact ⟨List.forall₂_same.mpr fun n _ => Node.Alike.refl n, Node.Alike.refl _⟩
  | catchClause h => exact Node.Alike.refl _
  | elementInit i => trivial
  | memberBinding b => rfl

/-- No factory rejects what it is given again with its parts retyped. -/
theorem Updated.retyped (h : i.Updated T R fresh out) (hT : ∀ k l, T k l → l.ty = k.ty)
    (hR : ∀ i j, R i j → i.Retyped j)
    (hB : ∀ ps qs, List.Forall₂ (R on .param) ps qs → checkUnique ps = .ok () →
      checkUnique qs = .ok ())
    (hm : i.Made) : Meets False i.Retyped out := by
  have hchoice {α : Type} {f : α → Item} {b : Bool} {x : α} {y : Result α}
      (hy : b = false → Meets False (fun a => (f x).Retyped (f a)) y) :
      Meets False (f x).Retyped (f <$> if b then .ok x else y) := by
    cases b with
    | true => exact Retyped.refl (f x)
    | false =>
      rw [if_neg Bool.false_ne_true]
      exact Meets.map (hy rfl)
  have alike {n m : Node} (h : R (.node n) (.node m)) : n.Alike m := hR _ _ h
  have each {ns ms : List Node} (h : List.Forall₂ (R on .node) ns ms) :
      List.Forall₂ Node.Alike ns ms :=
    h.imp fun _ _ => alike
  cases h with
  | @node n parts hs hp =>
    refine hchoice fun hb => ?_
    have hnew := Node.rebuild_meets fresh hb
    have hp' := hp.mono (fun _ _ h => h) hR
    rw [Node.rebuild_alike fresh hm hT hp' (hB _ _ hp.params)] at hnew ⊢
    exact ⟨Node.over_ty hp' hT fun _ _ h => h.ty, fun _ => hnew.kind, fun _ => hnew.isAssignable⟩
  | @hidden n hs => exact Retyped.refl (.node n)
  | @switchCase c tests body ht hb =>
    refine hchoice fun _ => ?_
    obtain ⟨_, hne, -⟩ := bind_ok.mp hm
    have hempty : tests.isEmpty = c.tests.isEmpty := by
      cases htests : c.tests <;> rw [htests] at ht <;> cases ht <;> rfl
    rw [Build.switchCase, hempty, hne]
    exact ⟨each ht, alike hb⟩
  | @catchClause h var filter body hv hf hb =>
    refine hchoice fun _ => ?_
    obtain ⟨hcatch, hvar, hfilter, -⟩ := catchClause_ok.mp hm
    have hvar' : ∀ q ∈ var, q.ty.accepts h.test = true := by
      refine Node.forall_optional hv (fun p q hpq hp => ?_) hvar
      rw [show q.ty = p.ty from (alike hpq).ty]
      exact hp
    have hfilter' := Node.forall_optional hf (fun _ _ h hp => (alike h).ty.trans hp) hfilter
    rw [catchClause_ok.mpr ⟨hcatch, hvar', hfilter', rfl⟩]
    exact alike hb
  | @elementInit e args ha =>
    refine hchoice fun _ => ?_
    obtain ⟨hstatic, hargs⟩ := Node.made_init hm
    have hargs' : checkArguments "element initializer" e.add.params e.args = .ok () :=
      checkArguments_ok.mpr hargs
    rw [Build.elementInit, hstatic, checkArguments_congr (each ha), hargs']
    trivial
  | @assign id m v v' hv =>
    refine hchoice fun _ => ?_
    simp only [Made, MemberBinding.Made, assignBinding, bind_ok] at hm
    obtain ⟨_, hwrite, _, hvalue, -⟩ := hm
    rw [assignBinding, hwrite, (alike hv).ty, hvalue]
    rfl
  | @nested id m bs bs' hb =>
    refine hchoice fun _ => ?_
    simp only [Made, MemberBinding.Made, nestedBinding, bind_ok] at hm
    obtain ⟨⟨_, hstatic, -⟩, -⟩ := hm
    rw [nestedBinding, hstatic]
    rfl
  | list hi => exact hchoice fun _ => rfl

end Item

end ExprTree
