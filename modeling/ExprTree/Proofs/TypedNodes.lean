import ExprTree.Proofs.TypedHandles

/-! The nodes that neither bind names nor catch signals: each is typed when its children are. -/
namespace ExprTree.Typing

open Evaluator Build

variable {Γ : Typing} {ev : Evaluator} {w u : Store} {n l r : Node} {ns : List Node}
  {x : Option Node} {t : Ty} {v a b : Value} {vs : List Value} {m : Option Method} {j : Prop}

/-! ### Operands -/

theorem storable_typed {ps : List Ty} (hs : Storable ps ns)
    (hv : List.Forall₂ (Γ.Has w) vs (ns.map Node.ty)) : List.Forall₂ (Γ.Has w) vs ps := by
  induction hs generalizing vs with
  | nil => exact hv
  | cons h _ ih =>
    obtain ⟨y, ys, hy, hys, rfl⟩ := List.forall₂_cons_right_iff.mp hv
    exact .cons (hy.stored (Or.inr h)) (ih hys)

theorem typed_mono {ps : List Ty} (hu : w.Extends u) (h : List.Forall₂ (Γ.Has w) vs ps) :
    List.Forall₂ (Γ.Has u) vs ps :=
  h.imp fun _ _ hv => hv.mono hu

theorem target_mono {o : Option Value} {T : Option Ty} (hu : w.Extends u)
    (h : Option.Rel (Γ.Has w) o T) : Option.Rel (Γ.Has u) o T := by
  cases h with
  | none => exact .none
  | some h => exact .some (h.mono hu)

variable (he : Γ.Evaluates ev)

include he

theorem eval_gives (hn : Γ.Tree w n) : Γ.Gives True w n.ty (ev.eval n) :=
  (he w n hn).mono fun _ _ _ h => h.1

theorem evalAll_yields (hn : ∀ n ∈ ns, Γ.Tree w n) :
    Γ.Yields True w (fun u vs => List.Forall₂ (Γ.Has u) vs (ns.map Node.ty)) (ev.evalAll ns) := by
  induction ns generalizing w with
  | nil => exact yields_pure fun _ _ => .nil
  | cons n ns ih =>
    refine (eval_gives he (hn n (by simp))).bind fun v u hu hv => ?_
    refine (ih fun k hk => (hn k (List.mem_cons_of_mem _ hk)).mono hu).bind fun vs u' hu' hvs => ?_
    exact yields_pure fun _ h => .cons (hv.mono (hu'.trans h)) (typed_mono h hvs)

theorem args_yields {ps : List Ty} (hs : Storable ps ns) (hn : ∀ n ∈ ns, Γ.Tree w n) :
    Γ.Yields True w (fun u vs => List.Forall₂ (Γ.Has u) vs ps) (ev.evalAll ns) :=
  (evalAll_yields he hn).mono fun _ _ _ h => storable_typed hs h

theorem evalBool_yields (hn : Γ.Tree w n) (ht : n.ty = .bool) :
    Γ.Yields True w (fun _ _ => True) (ev.evalBool n) := by
  refine (eval_gives he hn).bind fun v u _ hv => ?_
  obtain ⟨b, rfl⟩ := Value.fits_bool (ht ▸ hv.fits)
  exact yields_pure fun _ _ => trivial

theorem receiver_gives {member : String} (hn : Γ.Tree w n) :
    Γ.Gives True w n.ty (ev.receiver n member) :=
  (eval_gives he hn).bind fun _ _ _ hv => yields_ite (fun _ => yields_throw) fun _ => gives_pure hv

theorem receiver?_yields {member : String} (hx : ∀ n ∈ x, Γ.Tree w n) :
    Γ.Yields True w (fun u o => Option.Rel (Γ.Has u) o (x.map Node.ty))
      (ev.receiver? x member) := by
  cases x with
  | none => exact yields_pure fun _ _ => .none
  | some n =>
    exact (receiver_gives he (hx n rfl)).map (fun _ _ hv => .some hv) fun _ _ _ h ho =>
      target_mono h ho

omit he in
theorem indexed_yields {i : Indexer} {target : Value} :
    Γ.Yields j w (fun _ _ => True) (indexed i target) :=
  yields_ite (fun _ => yields_throw) fun _ => yields_pure fun _ _ => trivial

/-! ### Elements of arrays -/

omit he in
/-- The run goes on with a position of the array. -/
theorem element_bind {α : Type} {Q : Store → α → Prop} {f : Nat × Nat → Eval α}
    {array index : Value} {e i : Ty} (ht : Γ.Has w array (.array e)) (hi : index.fits i)
    (hk : i.isInteger) (hf : ∀ addr position u, w.Extends u → Γ.Backed u (.array e addr) →
      Γ.Yields j u Q (f (addr, position))) :
    Γ.Yields j w Q (do let p ← Eval.ofExcept (Value.element (← Eval.store) array index); f p) := by
  refine yields_store.bind fun s u hs _ => ?_
  obtain ⟨k, rfl⟩ : ∃ k, i = .int k := by cases i <;> first | exact ⟨_, rfl⟩ | cases hk
  have hel : Γ.Yields j u (fun u p => Γ.Backed u (.array e p.1))
      (Eval.ofExcept (Value.element s array index)) := by
    refine yields_ofExcept (Value.element_lands_of_fits ht.fits hi) ?_ nofun
    rintro p u' hu' ⟨e', rfl⟩
    obtain h | ⟨addr, h⟩ := Value.fits_array ht.fits
    · cases h
    · cases h
      exact (ht.mono (hs.trans hu')).backed
  exact hel.bind fun p u' hu' hp => hf p.1 p.2 u' (hs.trans hu') hp

omit he in
theorem readElement_gives {addr position : Nat} (ht : Γ.Backed w (.array t addr)) :
    Γ.Gives j w t (do Eval.ofExcept ((← Eval.store).readElement addr position)) := by
  refine yields_store.bind ?_
  rintro s _ hs ⟨rfl, hok⟩
  exact yields_ofExcept Store.readElement_lands
    (fun v u hu hv => (hok.item (ht.mono hs) hv).mono hu) nofun

omit he in
theorem writeElement_yields {addr position : Nat} (ht : Γ.Backed w (.array t addr))
    (hv : Γ.Has w v t) : Γ.Yields j w (fun _ _ => True) (writeElement addr position v) := by
  refine yields_store.bind fun s u hu _ => yields_ite (fun _ => ?_) fun _ => yields_throw
  refine yields_withStore fun u' hu' hok =>
    ⟨(native_setArrayItem u' addr position v).toExtends, ?_, trivial⟩
  exact storeOk_setArrayItem hok (ht.mono (hu.trans hu')) (hv.mono (hu.trans hu'))

/-! ### Places -/

/-- The place can be read and written at the type. -/
structure Accessible (Γ : Typing) (ev : Evaluator) (w : Store) (t : Ty) (p : Place) : Prop where
  read : Γ.Gives True w t (ev.read p)
  write {u : Store} {v : Value} :
    w.Extends u → Γ.Has u v t → Γ.Yields True u (fun _ _ => True) (ev.write p v)

variable (ha : Γ.Assumed ev.host)

include ha

theorem place_yields (hl : Γ.Tree w l) (has : l.isAssignable) (hw : ∀ x ∈ l.writes, Γ.uses x) :
    Γ.Yields True w (fun u p => Γ.Accessible ev u l.ty p) (ev.place l) := by
  have hreg := hl.here
  cases l with
  | param p =>
    have hp := hreg.declared.slots p (by simp [Node.slots])
    exact yields_pure fun _ _ => ⟨lookup_gives hp, fun _ hv => assign_yields hp hv⟩
  | member id x m =>
    have hx (n : Node) (hn : n ∈ x) : Γ.Tree w n := hl.child (by simpa [Node.children] using hn)
    refine (receiver?_yields he hx).bind fun o u _ ho => ?_
    have hget := hreg.uses (.get m (x.map Node.ty)) (by simp [Node.uses])
    refine yields_pure fun u' hu' => ⟨get_gives he ha hget (target_mono hu' ho), fun h hv => ?_⟩
    exact set_yields he ha (hw _ (by simp [Node.writes])) (target_mono (hu'.trans h) ho) hv
  | index id x i args t =>
    have hi := indexType_ok (Node.made_index hreg.made)
    refine (eval_gives he (hl.child (by simp [Node.children]))).bind fun target u hu htg => ?_
    have hargs (k : Node) (hk : k ∈ args) : Γ.Tree u k :=
      (hl.child (by simp [Node.children, hk])).mono hu
    rcases hi with ⟨i, rfl, hs, rfl⟩ | ⟨rfl, hx, a, rfl, hk⟩
    · refine (args_yields he hs hargs).bind fun vs u' hu' hvs => ?_
      refine indexed_yields.bind fun _ u'' hu'' _ => yields_pure fun u₃ hu₃ => ?_
      have htg' := htg.mono (hu'.trans (hu''.trans hu₃))
      have hvs' := typed_mono (hu''.trans hu₃) hvs
      refine ⟨getItem_gives he ha (hreg.uses _ (by simp [Node.uses])) htg' hvs', fun h hv => ?_⟩
      exact setItem_yields he ha (hw _ (by simp [Node.writes])) (htg'.mono h) (typed_mono h hvs') hv
    · refine (evalAll_yields he hargs).bind fun vs u' hu' hvs => ?_
      obtain ⟨index, _, hix, hnil, rfl⟩ := List.forall₂_cons_right_iff.mp hvs
      obtain rfl := List.forall₂_nil_right_iff.mp hnil
      refine element_bind (hx ▸ htg.mono hu') hix.fits hk fun addr position u₃ _ hb => ?_
      refine yields_pure fun u₄ hu₄ => ⟨readElement_gives (hb.mono hu₄), fun h hv => ?_⟩
      exact writeElement_yields (hb.mono (hu₄.trans h)) hv
  | _ => cases has

theorem assignment_gives (hl : Γ.Tree w l) (hr : Γ.Tree w r) (has : l.isAssignable)
    (hw : ∀ x ∈ l.writes, Γ.uses x) (ht : l.ty.accepts r.ty) :
    Γ.Gives True w l.ty (ev.assignment l r) := by
  refine (place_yields he ha hl has hw).bind fun p u hu hp => ?_
  refine (eval_gives he (hr.mono hu)).bind fun v u' hu' hv => ?_
  have hv' := hv.stored (Or.inr ht)
  exact (hp.write hu' hv').bind fun _ u'' hu'' _ => gives_pure (hv'.mono hu'')

/-! ### Native operators and operator methods -/

omit he ha in
theorem native_gives {r : Store → Except Fault Value}
    (h : ∀ s, Lands (fun v => v.fits t ∧ v.isAtom) (·.isOperand) (r s)) :
    Γ.Gives j w t (do Eval.ofExcept (r (← Eval.store))) :=
  yields_store.bind fun s _ _ _ =>
    yields_ofExcept (h s) (fun _ _ _ hv => ⟨hv.1, backed_of_atom hv.2⟩)
    fun _ => notStuck_of_operand

theorem operator_gives {k : Method} (hu : Γ.uses k.operatorUse) (hs : Storable k.params ns)
    (hv : List.Forall₂ (Γ.Has w) vs (ns.map Node.ty)) : Γ.Gives j w k.ret (ev.method k none vs) :=
  method_gives he ha hu .none (storable_typed hs hv)

/-- A binary operator gives what its method declares, or what its native rule lands in. -/
theorem binary_gives {op : NodeKind} {native : Result Ty} (hx : Γ.Has w a l.ty)
    (hy : Γ.Has w b r.ty) (hm : methodOr m [l, r] native = .ok t)
    (hu : ∀ k ∈ m, Γ.uses k.operatorUse) (hn : m = none → native = .ok t →
      ∀ s, Lands (fun v => v.fits t ∧ v.isAtom) (·.isOperand) (op.applyBinary s a b)) :
    Γ.Gives j w t (ev.applyBinary op m a b) := by
  cases m with
  | none => exact native_gives (hn rfl hm)
  | some k =>
    obtain ⟨⟨_, hs⟩, rfl⟩ := methodOr_some.mp hm
    exact operator_gives he ha (hu k rfl) hs (.cons hx (.cons hy .nil))

theorem unary_gives {op : NodeKind} {native : Result Ty} (hx : Γ.Has w a n.ty)
    (hm : methodOr m [n] native = .ok t) (hu : ∀ k ∈ m, Γ.uses k.operatorUse)
    (hn : m = none → native = .ok t →
      ∀ s, Lands (fun v => v.fits t ∧ v.isAtom) (·.isOperand) (op.applyUnary s a)) :
    Γ.Gives j w t (ev.applyUnary op m a) := by
  cases m with
  | none => exact native_gives (hn rfl hm)
  | some k =>
    obtain ⟨⟨_, hs⟩, rfl⟩ := methodOr_some.mp hm
    exact operator_gives he ha (hu k rfl) hs (.cons hx .nil)

omit ha in
/-- A conversion lambda is given what the method gives. -/
theorem convertBy_gives {f : Lambda} {p : Param} (hf : Γ.Tree w (.lambda f)) (hp : f.params = [p])
    (hv : Γ.Has w v p.ty) : Γ.Gives True w f.ret (ev.convertBy f v) := by
  refine yields_get.bind ?_
  rintro s _ hs ⟨rfl, hi⟩
  have hargs : List.Forall₂ (Γ.Has s.store) [v] (f.params.map Param.ty) := by
    rw [hp]
    exact .cons (hv.mono hs) .nil
  exact (callLambda_gives he (hf.mono hs)
    (fun i x hx => hi.slots (Environment.entry_of_mem_capture hx)) hargs).weaken

theorem compound_gives {id : Nat} {op : Arith} {f : Option Lambda}
    (hn : Γ.Tree w (.binary id (.compound op) l r m f t)) :
    Γ.Gives True w l.ty (ev.compound op l r m f) := by
  have hreg := hn.here
  have hl : Γ.Tree w l := hn.child (by simp [Node.children])
  have hr : Γ.Tree w r := hn.child (by simp [Node.children])
  obtain ⟨has, _, hop⟩ := compoundType_ok (Node.made_binary hreg.made)
  have hw : ∀ x ∈ l.writes, Γ.uses x := fun x hx => hreg.uses x (by simp [Node.uses, hx])
  refine (place_yields he ha hl has hw).bind fun p u hu hp => hp.read.bind fun a u₁ hu₁ hx => ?_
  refine (eval_gives he (hr.mono (hu.trans hu₁))).bind fun b u₂ hu₂ hy => ?_
  have hwrite (v : Value) (u₃ : Store) (hu₃ : u₂.Extends u₃) (hv : Γ.Has u₃ v l.ty) :
      Γ.Gives True u₃ l.ty (do ev.write p v; return v) :=
    (hp.write (hu₁.trans (hu₂.trans hu₃)) hv).bind fun _ _ hu₄ _ => gives_pure (hv.mono hu₄)
  rcases hop with ⟨rfl, t', ht⟩ | ⟨k, rfl, hs, hf⟩
  · have hnat : Γ.Gives True u₂ l.ty (ev.applyBinary (.binary (.arith op)) none a b) :=
      native_gives fun s =>
        (applyBinary_fits ht hx.fits hy.fits fun h => hreg.regular ⟨rfl, h⟩).mono
        (fun _ hv => ⟨hv.1.2, hv.2⟩) fun _ h => h
    exact hnat.bind fun v u₃ hu₃ hv => hwrite v u₃ hu₃ hv
  · have huse : Γ.uses k.operatorUse := hreg.uses _ (by simp [Node.uses])
    have hop : Γ.Gives True u₂ k.ret (ev.applyBinary (.binary (.arith op)) (some k) a b) :=
      operator_gives he ha huse hs (.cons (hx.mono hu₂) (.cons hy .nil))
    refine hop.bind fun v u₃ hu₃ hv => ?_
    rcases hf with ⟨rfl, hret⟩ | ⟨g, q, rfl, hg, hq, hret⟩
    · exact hwrite v u₃ hu₃ (hret ▸ hv)
    · have hgt : Γ.Tree w (.lambda g) := hn.child (by simp [Node.children])
      refine (convertBy_gives he (hgt.mono (hu.trans (hu₁.trans (hu₂.trans hu₃)))) hg
        (hq ▸ hv)).bind ?_
      exact fun v' u₄ hu₄ hv' => hwrite v' u₄ (hu₃.trans hu₄) (hv'.stored (Or.inr hret))

/-! ### Operators -/

theorem step_gives {op : UnaryArith} {post : Bool} {native : Result Ty} (hn : Γ.Tree w n)
    (has : n.isAssignable) (hw : ∀ x ∈ n.writes, Γ.uses x) (hop : op ≠ .arrayLength)
    (hm : methodOr m [n] native = .ok n.ty) (hu : ∀ k ∈ m, Γ.uses k.operatorUse) :
    Γ.Gives True w n.ty (ev.step op post n m) := by
  refine (place_yields he ha hn has hw).bind fun p u _ hp => hp.read.bind fun old u₁ hu₁ hold => ?_
  have happ : Γ.Gives True u₁ n.ty (ev.applyUnary (.unary (.arith op)) m old) :=
    unary_gives he ha hold hm hu fun _ _ _ => applyUnary_fits (by simpa using hop) hold.fits
  refine happ.bind fun new u₂ hu₂ hnew => (hp.write (hu₁.trans hu₂) hnew).bind fun _ u₃ hu₃ _ => ?_
  refine gives_pure ?_
  split
  · exact hold.mono (hu₂.trans hu₃)
  · exact hnew.mono hu₃

theorem evalBinary_gives {id : Nat} {op : BinaryOp} {f : Option Lambda}
    (hn : Γ.Tree w (.binary id op l r m f t)) : Γ.Gives True w t (ev.evalBinary op l r m f) := by
  have hreg := hn.here
  have hl : Γ.Tree w l := hn.child (by simp [Node.children])
  have hr : Γ.Tree w r := hn.child (by simp [Node.children])
  have hmade := Node.made_binary hreg.made
  have htrue (b : Bool) (u : Store) : Γ.Has u (.bool b) .bool := ⟨Value.fits_runtimeType, trivial⟩
  cases op with
  | assign =>
    simp only [binaryType, bind_ok, checkTarget_ok, checkAssignable_ok, exists_const, pure_ok]
      at hmade
    obtain ⟨has, ht, rfl⟩ := hmade
    exact assignment_gives he ha hl hr has (fun x hx => hreg.uses x (by simp [Node.uses, hx])) ht
  | compound op =>
    obtain ⟨_, rfl, _⟩ := compoundType_ok hmade
    exact compound_gives he ha hn
  | andAlso =>
    simp only [binaryType, bind_ok, require_ok, isBool_iff, exists_const, pure_ok] at hmade
    obtain ⟨hlb, hrb, rfl⟩ := hmade
    refine (evalBool_yields he hl hlb).bind fun b u hu _ => yields_ite (fun _ => ?_) fun _ => ?_
    · exact (evalBool_yields he (hr.mono hu) hrb).bind fun b _ _ _ => gives_pure (htrue b _)
    · exact gives_pure (htrue false u)
  | orElse =>
    simp only [binaryType, bind_ok, require_ok, isBool_iff, exists_const, pure_ok] at hmade
    obtain ⟨hlb, hrb, rfl⟩ := hmade
    refine (evalBool_yields he hl hlb).bind fun b u hu _ => yields_ite (fun _ => ?_) fun _ => ?_
    · exact gives_pure (htrue true u)
    · exact (evalBool_yields he (hr.mono hu) hrb).bind fun b _ _ _ => gives_pure (htrue b _)
  | coalesce => exact absurd trivial hreg.regular
  | arrayIndex =>
    obtain ⟨ht, hi⟩ := arrayIndexType_ok hmade
    have hk : r.ty.isInteger := hi.resolve_right hreg.regular
    refine (eval_gives he hl).bind fun a u hu hx =>
      (eval_gives he (hr.mono hu)).bind fun i u₁ hu₁ hy => ?_
    exact element_bind (ht ▸ hx.mono hu₁) hy.fits hk fun _ _ _ _ hb => readElement_gives hb
  | arith op =>
    refine (eval_gives he hl).bind fun a u hu hx =>
      (eval_gives he (hr.mono hu)).bind fun b u₁ hu₁ hy => ?_
    refine binary_gives he ha (hx.mono hu₁) hy hmade
      (fun k hk => hreg.uses _ (by simp_all [Node.uses])) ?_
    rintro rfl ht s
    refine (applyBinary_fits ht hx.fits hy.fits fun h => hreg.regular ⟨rfl, h⟩).mono ?_ fun _ h => h
    exact fun _ hv => ⟨hv.1.1, hv.2⟩
  | compare c =>
    refine (eval_gives he hl).bind fun a u hu hx =>
      (eval_gives he (hr.mono hu)).bind fun b u₁ hu₁ hy => ?_
    refine binary_gives he ha (hx.mono hu₁) hy hmade
      (fun k hk => hreg.uses _ (by simp_all [Node.uses])) ?_
    rintro rfl ht s
    obtain rfl := comparisonType_ok ht
    exact compare_fits

omit ha in
/-- A throw gives no value. -/
theorem evalThrow_yields {Q : Store → Value → Prop} (hx : ∀ n ∈ x, Γ.Tree w n) :
    Γ.Yields True w Q (ev.evalThrow x) := by
  cases x with
  | none =>
    refine yields_get.bind ?_
    rintro s _ _ ⟨rfl, hi⟩
    split
    · rename_i y ys hys
      exact yields_signal fun _ hu => (hi.handling y (by simp [hys])).mono hu
    · exact yields_throw
  | some n =>
    refine (eval_gives he (hx n rfl)).bind fun v u _ hv =>
      yields_ite (fun _ => yields_throw) fun _ => ?_
    refine yields_ite (fun _ => yields_signal fun _ hu => hv.backed.mono hu) fun _ =>
      yields_fatal rfl

omit he ha in
/-- What a conversion makes needs no cell, and what it leaves as it is has its own. -/
theorem converted_gives {r : Except Fault Value} (hv : Γ.Has w v n.ty)
    (hr : Lands (·.fits t) (fun _ => False) r) (hb : ∀ a, r = .ok a → a = v ∨ a.isAtom) :
    Γ.Gives j w t (Eval.ofExcept r) := by
  refine yields_ofExcept (hr.and hb) ?_ nofun
  rintro a u hu ⟨ht, rfl | hat⟩
  · exact ⟨ht, hv.backed.mono hu⟩
  · exact ⟨ht, backed_of_atom hat⟩

theorem convert_gives {op : UnaryOp} {target : Option Ty}
    (ho : op = .convert ∨ op = .convertChecked) (hv : Γ.Has w v n.ty)
    (ht : unaryType op n target m = .ok t) (hu : ∀ k ∈ m, Γ.uses k.operatorUse) :
    Γ.Gives True w t (ev.applyUnaryOp op m t v) := by
  cases m with
  | none =>
    rcases ho with rfl | rfl
    · exact converted_gives hv Value.convert_lands fun _ h => convert_atom h
    · exact converted_gives hv Value.convert_lands fun _ h => convert_atom h
  | some k =>
    obtain ⟨hs, hret⟩ := convertType_ok ho ht k rfl
    exact (operator_gives he ha (hu k rfl) hs (.cons hv .nil)).mono fun _ _ _ h =>
      h.stored (Or.inr hret)

omit he ha in
theorem applyUnaryOp_arith {op : UnaryArith} (h : op ≠ .arrayLength) :
    ev.applyUnaryOp (.arith op) m t v = ev.applyUnary (.unary (.arith op)) m v := by
  cases m <;> cases op <;> first | rfl | exact absurd rfl h

/-- A length and a truth test apart, a native rule gives what the operand is. -/
theorem unaryArith_gives {id : Nat} {op : UnaryArith} {target : Option Ty}
    (hn : ¬(Node.unary id (.arith op) (some n) m t).Irregular) (hv : Γ.Has w v n.ty)
    (hm : m.isNone ∨ takesUnaryMethod (.arith op)) (ht : unaryType (.arith op) n target m = .ok t)
    (hu : ∀ k ∈ m, Γ.uses k.operatorUse) :
    Γ.Gives True w t (ev.applyUnaryOp (.arith op) m t v) := by
  by_cases hl : op = .arrayLength
  · subst hl
    obtain rfl : m = none := by simpa [takesUnaryMethod] using hm
    cases harr : n.ty with
    | array e =>
      obtain rfl : .int .i32 = t := by simpa [unaryType, harr] using ht
      refine yields_ite (fun _ => yields_throw) fun hnull => ?_
      exact native_gives fun s => length_fits (harr ▸ hv.fits) (by simpa using hnull)
    | _ => simp [unaryType, harr] at ht
  rw [applyUnaryOp_arith hl]
  by_cases ho : op = .isTrue ∨ op = .isFalse
  · obtain rfl := truthType_ok ht ho
    have hnone : m = none := by rcases ho with rfl | rfl <;> simpa [Node.Irregular] using hn
    subst hnone
    exact native_gives fun s => truth_fits (by simpa using ho)
  · obtain ⟨native, hmt, hnat⟩ := unaryArithType_ok ht hl ho
    refine unary_gives he ha hv hmt hu fun _ h s => ?_
    exact applyUnary_fits (by simpa using hl) (hnat h ▸ hv.fits)

theorem applyUnaryOp_gives {id : Nat} {op : UnaryOp} {target : Option Ty}
    (hn : ¬(Node.unary id op (some n) m t).Irregular) (hv : Γ.Has w v n.ty)
    (hm : m.isNone ∨ takesUnaryMethod op) (ht : unaryType op n target m = .ok t)
    (hu : ∀ k ∈ m, Γ.uses k.operatorUse) (hs : op.step? = none) (hq : op ≠ .quote)
    (htr : op ≠ .throw) :
    Γ.Gives True w t (ev.applyUnaryOp op m t v) := by
  cases op with
  | arith op => exact unaryArith_gives he ha hn hv hm ht hu
  | convert => exact convert_gives he ha (Or.inl rfl) hv ht hu
  | convertChecked => exact convert_gives he ha (Or.inr rfl) hv ht hu
  | typeAs =>
    obtain rfl : m = none := by simpa [takesUnaryMethod] using hm
    simp only [unaryType, bind_ok, needTarget_ok, require_ok, exists_const, pure_ok] at ht
    obtain ⟨_, _, hr, rfl⟩ := ht
    refine gives_pure ⟨Value.typeAs_fits hr, ?_⟩
    rcases typeAs_atom with h | h
    · exact h ▸ hv.backed
    · exact backed_of_atom h
  | unbox =>
    obtain rfl : m = none := by simpa [takesUnaryMethod] using hm
    exact converted_gives hv Value.unbox_lands fun _ h => Or.inl (unbox_eq h)
  | quote => exact absurd rfl hq
  | throw => exact absurd rfl htr
  | _ => cases hs

/-- A throw has no value; any other operator has one of the node's type. -/
theorem evalUnary_yields {id : Nat} {op : UnaryOp} (hn : Γ.Tree w (.unary id op x m t)) :
    Γ.Yields True w (fun u v => Γ.Has u v t ∧ op ≠ .throw) (ev.evalUnary op x m t) := by
  by_cases htr : op = .throw
  · subst htr
    exact evalThrow_yields he fun n hx => hn.child (by simpa [Node.children] using hx)
  have hreg := hn.here
  obtain ⟨y, rfl, hm, target, ht⟩ := Node.made_unary hreg.made htr
  suffices h : Γ.Gives True w t (ev.evalUnary op (some y) m t) from h.mono fun _ _ _ hv => ⟨hv, htr⟩
  have hu (k : Method) (hk : k ∈ m) : Γ.uses k.operatorUse := hreg.uses _ (by simp_all [Node.uses])
  by_cases hq : op = .quote
  · subst hq
    refine gives_pure ⟨?_, trivial⟩
    cases y <;> simp [unaryType] at ht
    exact ht ▸ Value.fits_runtimeType
  have hy : Γ.Tree w y := hn.child (by cases op <;> simp_all [Node.children])
  cases hs : op.step? with
  | some a =>
    obtain ⟨has, rfl, native, hmt⟩ := stepType_ok (by simp [hs]) ht
    have hw (z : Use) (hz : z ∈ y.writes) : Γ.uses z := hreg.uses _ (by simp [Node.uses, hs, hz])
    cases op <;> cases hs <;> exact step_gives he ha hy has hw (by simp) hmt hu
  | none =>
    have happ : Γ.Gives True w t (do let v ← ev.eval y; ev.applyUnaryOp op m t v) :=
      (eval_gives he hy).bind fun v u _ hv =>
        applyUnaryOp_gives he ha hreg.regular hv hm ht hu hs hq htr
    cases op <;> first | exact happ | exact absurd rfl hq | exact absurd rfl htr | cases hs

/-! ### Choices -/

omit he ha in
/-- What a branch completes with fits the type that it was checked for. -/
theorem Completes.typed (hv : Γ.Completes n w v) (hb : FitsBranch t n) : Γ.Has w v t := by
  rcases hb with h | h | h
  · exact hv.1.stored (Or.inl h)
  · simp [hv.2] at h
  · exact hv.1.stored (Or.inr h)

omit ha in
theorem branch_gives (hn : Γ.Tree w n) (hb : FitsBranch t n) : Γ.Gives True w t (ev.eval n) :=
  (he w n hn).mono fun _ _ _ hv => hv.typed hb

omit ha in
theorem evalConditional_gives {id : Nat} {test : Node}
    (hn : Γ.Tree w (.conditional id test l r t)) :
    Γ.Gives True w t (ev.evalConditional test l r t) := by
  obtain ⟨ht, hl, hr⟩ := Node.made_conditional hn.here.made
  have hbranch (b : Node) (hb : b ∈ (Node.conditional id test l r t).children) (hf : FitsBranch t b)
      (u : Store) (hu : w.Extends u) : Γ.Gives True u t (do return t.result (← ev.eval b)) :=
    (branch_gives he ((hn.child hb).mono hu) hf).bind fun _ _ _ hv => gives_pure hv.result
  refine (evalBool_yields he (hn.child (by simp [Node.children])) ht).bind fun b u hu _ => ?_
  exact yields_ite (fun _ => hbranch l (by simp [Node.children]) hl u hu)
    fun _ => hbranch r (by simp [Node.children]) hr u hu

/-- A comparer is used with the value and with every test. -/
def ComparerOk (Γ : Typing) (m : Option Method) (value : Ty) (tests : List Node) : Prop :=
  ∀ k ∈ m, k.ret = .bool ∧ ∀ n ∈ tests, Γ.uses (.method k none [value, n.ty])

theorem matchesCase_yields (hm : ∀ k ∈ m, k.ret = .bool ∧ Γ.uses (.method k none [t, n.ty]))
    (hx : Γ.Has w a t) (hy : Γ.Has w b n.ty) :
    Γ.Yields True w (fun _ _ => True) (ev.matchesCase m a b) := by
  cases m with
  | none => exact yields_pure fun _ _ => trivial
  | some k =>
    obtain ⟨hk, hu⟩ := hm k rfl
    refine (method_gives he ha hu .none (.cons hx (.cons hy .nil))).bind fun v u _ hv => ?_
    obtain ⟨b, rfl⟩ := Value.fits_bool (hk ▸ hv.fits)
    exact yields_pure fun _ _ => trivial

theorem anyMatches_yields (hm : Γ.ComparerOk m t ns) (hx : Γ.Has w a t)
    (hn : ∀ n ∈ ns, Γ.Tree w n) : Γ.Yields True w (fun _ _ => True) (ev.anyMatches m a ns) := by
  induction ns generalizing w with
  | nil => exact yields_pure fun _ _ => trivial
  | cons n ns ih =>
    refine (eval_gives he (hn n (by simp))).bind fun b u hu hy => ?_
    have hhead : ∀ k ∈ m, k.ret = .bool ∧ Γ.uses (.method k none [t, n.ty]) :=
      fun k hk => (hm k hk).imp id fun h => h n (by simp)
    have htail : Γ.ComparerOk m t ns :=
      fun k hk => (hm k hk).imp id fun h q hq => h q (List.mem_cons_of_mem _ hq)
    refine (matchesCase_yields he ha hhead (hx.mono hu) hy).bind fun c u₁ hu₁ _ => ?_
    refine yields_ite (fun _ => yields_pure fun _ _ => trivial) fun _ => ?_
    exact ih htail (hx.mono (hu.trans hu₁)) fun q hq =>
      (hn q (List.mem_cons_of_mem _ hq)).mono (hu.trans hu₁)

/-- The body selected is that of a case. -/
theorem selectCase_yields {cases : List SwitchCase}
    (hm : Γ.ComparerOk m t (cases.flatMap SwitchCase.tests)) (hx : Γ.Has w a t)
    (hn : ∀ n ∈ cases.flatMap SwitchCase.tests, Γ.Tree w n) :
    Γ.Yields True w (fun _ o => ∀ b ∈ o, ∃ c ∈ cases, b = c.body) (ev.selectCase m a cases) := by
  induction cases generalizing w with
  | nil => exact yields_pure fun _ _ => by simp
  | cons c cs ih =>
    have hmem {q : Node} (hq : q ∈ cs.flatMap SwitchCase.tests) :
        q ∈ (c :: cs).flatMap SwitchCase.tests := by
      simp only [List.flatMap_cons, List.mem_append]
      exact Or.inr hq
    have hm₁ : Γ.ComparerOk m t c.tests :=
      fun k hk => (hm k hk).imp id fun h q hq => h q (by simp [hq])
    refine (anyMatches_yields he ha hm₁ hx fun q hq => hn q (by simp [hq])).bind fun b u hu _ => ?_
    refine yields_ite (fun _ => yields_pure fun _ _ => by simp) fun _ => ?_
    have hm₂ : Γ.ComparerOk m t (cs.flatMap SwitchCase.tests) :=
      fun k hk => (hm k hk).imp id fun h q hq => h q (hmem hq)
    refine (ih hm₂ (hx.mono hu) fun q hq => (hn q (hmem hq)).mono hu).mono fun _ o _ ho b hb => ?_
    obtain ⟨d, hd, h⟩ := ho b hb
    exact ⟨d, List.mem_cons_of_mem _ hd, h⟩

theorem evalSwitch_gives {id : Nat} {cases : List SwitchCase}
    (hn : Γ.Tree w (.switch id n cases x m t)) :
    Γ.Gives True w t (ev.evalSwitch n cases x m t) := by
  obtain ⟨hm, hc, hx⟩ := Node.made_switch hn.here.made
  have hcomp : Γ.ComparerOk m n.ty (cases.flatMap SwitchCase.tests) := by
    rintro k rfl
    refine ⟨hm k rfl, fun q hq => hn.here.uses _ ?_⟩
    exact List.mem_map.mpr ⟨q, hq, rfl⟩
  have hchild (c : SwitchCase) (hc : c ∈ cases) (q : Node) (hq : q ∈ c.nodes) : Γ.Tree w q := by
    refine hn.child (List.mem_cons_of_mem _ (List.mem_append_left _ ?_))
    exact List.mem_flatMap.mpr ⟨c, hc, hq⟩
  have hv : Γ.Tree w n := hn.child (by simp [Node.children])
  have htests (q : Node) (hq : q ∈ cases.flatMap SwitchCase.tests) : Γ.Tree w q := by
    obtain ⟨c, hc, hq⟩ := List.mem_flatMap.mp hq
    exact hchild c hc q (List.mem_append_left _ hq)
  refine (eval_gives he hv).bind fun v u hu hx' => ?_
  refine (selectCase_yields he ha hcomp hx' fun q hq =>
    (htests q hq).mono hu).bind fun o u₁ hu₁ ho => ?_
  split
  · rename_i b hb
    have hbody : Γ.Tree w b ∧ FitsBranch t b := by
      rcases Option.or_eq_some_iff.mp hb with hb | ⟨_, hb⟩
      · obtain ⟨c, hcs, rfl⟩ := ho b hb
        exact ⟨hchild c hcs c.body (List.mem_append_right _ (by simp)), hc c hcs⟩
      · exact ⟨hn.child (by simp [Node.children, hb]), hx b hb⟩
    exact (branch_gives he (hbody.1.mono (hu.trans hu₁)) hbody.2).bind fun _ _ _ hv =>
      gives_pure hv.result
  · exact gives_pure zero_typed

/-! ### Calls, constructions and accesses -/

theorem evalCall_gives {id : Nat} {k : Method} (hn : Γ.Tree w (.call id x k ns)) :
    Γ.Gives True w k.ret (ev.evalCall x k ns) := by
  have hs := Node.made_call hn.here.made
  refine (receiver?_yields he fun q hq =>
    hn.child (by simp_all [Node.children])).bind fun o u hu ho => ?_
  refine (args_yields he hs fun q hq => (hn.child (by simp [Node.children, hq])).mono hu).bind
    fun vs u₁ hu₁ hvs => ?_
  exact method_gives he ha (hn.here.uses _ (by simp [Node.uses])) (target_mono hu₁ ho) hvs

theorem evalInvoke_gives {id : Nat} (hn : Γ.Tree w (.invoke id n ns t)) :
    Γ.Gives True w t (ev.evalInvoke n ns) := by
  obtain ⟨ps, hty, hs⟩ := Node.made_invoke hn.here.made
  refine (eval_gives he (hn.child (by simp [Node.children]))).bind fun f u hu hf => ?_
  refine (args_yields he hs fun q hq => (hn.child (by simp [Node.children, hq])).mono hu).bind
    fun vs u₁ hu₁ hvs => ?_
  exact invoke_gives he ha (hty ▸ hf.mono hu₁) hvs

theorem evalNew_gives {c : Construction} (hc : c.Made) (hu : Γ.uses (.construct c.ctor))
    (hn : ∀ n ∈ c.args, Γ.Tree w n) : Γ.Gives True w c.ty (ev.evalNew c) :=
  (args_yields he (Node.made_new hc) hn).bind fun _ _ _ hvs => construct_gives he ha hu hvs

omit he ha in
theorem items_typed {e : Ty} (hs : ∀ n ∈ ns, e.accepts n.ty)
    (hv : List.Forall₂ (Γ.Has w) vs (ns.map Node.ty)) : ∀ v ∈ vs, Γ.Has w v e := by
  induction ns generalizing vs with
  | nil => simp_all
  | cons n ns ih =>
    obtain ⟨y, ys, hy, hys, rfl⟩ := List.forall₂_cons_right_iff.mp hv
    intro v h
    rcases List.mem_cons.mp h with rfl | h
    · exact hy.stored (Or.inr (hs n (by simp)))
    · exact ih (fun k hk => hs k (List.mem_cons_of_mem _ hk)) hys v h

omit he ha in
theorem newItems_gives {e : Ty} (hv : ∀ v ∈ vs, Γ.Has w v e) :
    Γ.Gives j w (.array e) (Eval.withStore (·.newArray e vs.toArray)) := by
  refine yields_withStore fun u hu hok => ?_
  have hi : ∀ v ∈ vs.toArray, Γ.Has u v e := fun v h => (hv v (by simpa using h)).mono hu
  exact ⟨(native_newArray u e vs.toArray).toExtends, newArray_typed hok hi⟩

omit he ha in
/-- The items of a new array of a size are zeros. -/
theorem newSized_gives {e i : Ty} (hv : v.fits i) (hi : i.isInteger) :
    Γ.Gives j w (.array e) (newSized e v) := by
  obtain ⟨k, rfl⟩ : ∃ k, i = .int k := by cases i <;> first | exact ⟨_, rfl⟩ | cases hi
  obtain ⟨word, rfl⟩ := Value.fits_int hv
  refine yields_ite (fun _ => yields_throw) fun _ => yields_withStore fun u _ hok => ?_
  refine ⟨(native_newArray u e _).toExtends, newArray_typed hok fun v hv => ?_⟩
  obtain rfl := (Array.mem_replicate.mp hv).2
  exact zero_typed

omit ha in
theorem evalNewArray_gives {id : Nat} {form : ArrayForm} {e : Ty}
    (hn : Γ.Tree w (.newArray id form e ns)) :
    Γ.Gives True w (.array e) (ev.evalNewArray form e ns) := by
  have hns : ∀ q ∈ ns, Γ.Tree w q := fun q hq => hn.child hq
  refine (evalAll_yields he hns).bind fun vs u _ hvs => ?_
  cases form with
  | items => exact newItems_gives (items_typed (Node.made_items hn.here.made) hvs)
  | bounds =>
    have hint := Node.made_bounds hn.here.made
    split
    · rename_i heq
      cases heq
    · rename_i size _
      cases ns with
      | nil => cases hvs
      | cons n ns =>
        obtain ⟨hsize, _⟩ := List.forall₂_cons.mp hvs
        exact newSized_gives hsize.fits (hint n (by simp))
    · exact yields_fatal rfl

theorem evalMember_gives {id : Nat} {k : Member} (hn : Γ.Tree w (.member id x k)) :
    Γ.Gives True w k.ty (ev.evalMember x k) := by
  have hx (q : Node) (hq : q ∈ x) : Γ.Tree w q := hn.child (by simpa [Node.children] using hq)
  refine (receiver?_yields he hx).bind fun o u _ ho => ?_
  exact get_gives he ha (hn.here.uses _ (by simp [Node.uses])) ho

theorem evalIndex_gives {id : Nat} {i : Option Indexer} (hn : Γ.Tree w (.index id n i ns t)) :
    Γ.Gives True w t (ev.evalIndex n i ns) := by
  refine (eval_gives he (hn.child (by simp [Node.children]))).bind fun target u hu htg => ?_
  have hargs (k : Node) (hk : k ∈ ns) : Γ.Tree u k :=
    (hn.child (by simp [Node.children, hk])).mono hu
  refine (evalAll_yields he hargs).bind fun vs u₁ hu₁ hvs => ?_
  rcases indexType_ok (Node.made_index hn.here.made) with ⟨k, rfl, hs, rfl⟩ | ⟨rfl, hx, a, rfl, hk⟩
  · refine indexed_yields.bind fun _ u₂ hu₂ _ => ?_
    exact getItem_gives he ha (hn.here.uses _ (by simp [Node.uses])) (htg.mono (hu₁.trans hu₂))
      (typed_mono hu₂ (storable_typed hs hvs))
  · obtain ⟨index, _, hix, hnil, rfl⟩ := List.forall₂_cons_right_iff.mp hvs
    obtain rfl := List.forall₂_nil_right_iff.mp hnil
    exact element_bind (hx ▸ htg.mono hu₁) hix.fits hk fun _ _ _ _ hb => readElement_gives hb

/-! ### Initializers -/

theorem addAll_yields {inits : List ElementInit} (hv : Γ.Has w v t)
    (hm : ∀ i ∈ inits, i.Made ∧ Γ.uses (i.use t)) (hn : ∀ i ∈ inits, ∀ n ∈ i.args, Γ.Tree w n) :
    Γ.Yields True w (fun _ _ => True) (ev.addAll v inits) := by
  induction inits generalizing w with
  | nil => exact yields_pure fun _ _ => trivial
  | cons i is ih =>
    obtain ⟨hmade, huse⟩ := hm i (by simp)
    obtain ⟨hst, hs⟩ := Node.made_init hmade
    refine (args_yields he hs (hn i (by simp))).bind fun vs u hu hvs => ?_
    rw [if_neg (by simp [hst])]
    refine (method_gives he ha huse (.some (hv.mono hu)) hvs).bind fun _ u₁ hu₁ _ => ?_
    refine ih (hv.mono (hu.trans hu₁)) (fun k hk => hm k (List.mem_cons_of_mem _ hk))
      fun k hk n hkn => ?_
    exact (hn k (List.mem_cons_of_mem _ hk) n hkn).mono (hu.trans hu₁)

theorem initialized_gives {what : String} {k : Member} {target : Option Value} {T : Option Ty}
    (hu : Γ.uses (.get k T)) (ht : Option.Rel (Γ.Has w) target T) :
    Γ.Gives True w k.ty (ev.initialized what k target) :=
  (get_gives he ha hu ht).bind fun _ _ _ hv => yields_ite (fun _ => yields_throw) fun _ =>
    gives_pure hv

omit he ha in
theorem target_typed {k : Member} (hv : Γ.Has w v t) :
    Option.Rel (Γ.Has w) (if k.isStatic then none else some v) (k.target t) := by
  unfold Member.target
  split
  · exact .none
  · exact .some hv

omit he ha

mutual

theorem bind_yields (he : Γ.Evaluates ev) (ha : Γ.Assumed ev.host) {w : Store} {v : Value}
    {owner : Ty} (hv : Γ.Has w v owner) : (b : MemberBinding) → b.Made →
    (∀ x ∈ b.uses owner, Γ.uses x) → (∀ n ∈ b.nodes, Γ.Tree w n) →
    Γ.Yields True w (fun _ _ => True) (ev.bind v b)
  | .assign id k y, hm, hu, hn => by
    simp only [MemberBinding.Made, assignBinding, bind_ok, require_ok, checkAssignable_ok,
      exists_const] at hm
    refine (eval_gives he (hn y (by simp [MemberBinding.nodes]))).bind fun x u hw hx => ?_
    exact set_yields he ha (hu _ (by simp [MemberBinding.uses])) (target_typed (hv.mono hw))
      (hx.stored (Or.inr hm.2.1))
  | .nested id k bs, hm, hu, hn => by
    refine (initialized_gives he ha (hu _ (by simp [MemberBinding.uses])) (target_typed hv)).bind
      fun x u hw hx => ?_
    have hbs (y : Use) (hy : y ∈ bindingUses k.ty bs) : Γ.uses y :=
      hu y (by simp [MemberBinding.uses, hy])
    refine bindAll_yields he ha hx bs hm.2 hbs fun n hn' => ?_
    exact (hn n (by simpa [MemberBinding.nodes] using hn')).mono hw
  | .list id k is, hm, hu, hn => by
    refine (initialized_gives he ha (hu _ (by simp [MemberBinding.uses])) (target_typed hv)).bind
      fun x u hw hx => ?_
    refine addAll_yields he ha hx (fun i hi => ⟨hm.2 i hi, hu _ ?_⟩) fun i hi n hn' => ?_
    · exact List.mem_cons_of_mem _ (List.mem_map.mpr ⟨i, hi, rfl⟩)
    · exact (hn n (List.mem_flatMap.mpr ⟨i, hi, hn'⟩)).mono hw

theorem bindAll_yields (he : Γ.Evaluates ev) (ha : Γ.Assumed ev.host) {w : Store} {v : Value}
    {owner : Ty} (hv : Γ.Has w v owner) : (bs : List MemberBinding) → bindingsMade bs →
    (∀ x ∈ bindingUses owner bs, Γ.uses x) → (∀ n ∈ bindingNodes bs, Γ.Tree w n) →
    Γ.Yields True w (fun _ _ => True) (ev.bindAll v bs)
  | [], _, _, _ => yields_pure fun _ _ => trivial
  | b :: bs, hm, hu, hn => by
    refine (bind_yields he ha hv b hm.1 (fun y hy => hu y (by simp [bindingUses, hy])) fun n hb =>
      hn n (List.mem_append_left _ hb)).bind fun _ u hw _ => ?_
    have hbs (y : Use) (hy : y ∈ bindingUses owner bs) : Γ.uses y :=
      hu y (by simp [bindingUses, hy])
    refine bindAll_yields he ha (hv.mono hw) bs hm.2 hbs fun n hb => ?_
    exact (hn n (List.mem_append_right _ hb)).mono hw

end

include he ha

theorem evalListInit_gives {id : Nat} {c : Construction} {inits : List ElementInit}
    (hn : Γ.Tree w (.listInit id c inits)) : Γ.Gives True w c.ty (ev.evalListInit c inits) := by
  obtain ⟨hc, hi, _⟩ := hn.here.made
  have huse := hn.here.uses
  refine (evalNew_gives he ha hc (huse _ (by simp [Node.uses])) fun q hq =>
    hn.child (List.mem_append_left _ hq)).bind fun v u hu hv => ?_
  refine (addAll_yields he ha hv (fun i hi' => ⟨hi i hi', huse _ ?_⟩) fun i hi' q hq => ?_).bind
    fun _ _ hu₁ _ => gives_pure (hv.mono hu₁)
  · exact List.mem_cons_of_mem _ (List.mem_map.mpr ⟨i, hi', rfl⟩)
  · exact (hn.child (List.mem_append_right _ (List.mem_flatMap.mpr ⟨i, hi', hq⟩))).mono hu

theorem evalMemberInit_gives {id : Nat} {c : Construction} {bs : List MemberBinding}
    (hn : Γ.Tree w (.memberInit id c bs)) : Γ.Gives True w c.ty (ev.evalMemberInit c bs) := by
  obtain ⟨hc, hb, _⟩ := hn.here.made
  have huse := hn.here.uses
  refine (evalNew_gives he ha hc (huse _ (by simp [Node.uses])) fun q hq =>
    hn.child (List.mem_append_left _ hq)).bind fun v u hu hv => ?_
  refine (bindAll_yields he ha hv bs hb (fun x hx => huse x (List.mem_cons_of_mem _ hx)) fun q hq =>
    ?_).bind
    fun _ _ hu₁ _ => gives_pure (hv.mono hu₁)
  exact (hn.child (List.mem_append_right _ hq)).mono hu

end ExprTree.Typing
