import ExprTree.Host.Scripted
import ExprTree.Proofs.CheckedArithmetic
import ExprTree.Proofs.OperatorRules

/-! A plus with an operand whose type is that of texts. The factory goes by the type, the operator
by the values, and the two differ where all that stands for a text is null. -/
namespace ExprTree

variable {a b : Value} {l r : Node} {t : State} {outcome : Outcome Value}

/-- Whether a plus of the values concatenates. -/
def Value.joins (a b : Value) : Bool := a.str?.isSome || b.str?.isSome

/-- How a plus ends: the text of both values goes on if one of them is a text, and else there is no
rule. -/
structure Concatenated (a b : Value) (t : State) (next : Value → Outcome Value)
    (outcome : Outcome Value) : Prop where
  joined : a.joins b → ∀ x y, a.concatText? t.store = some x → b.concatText? t.store = some y →
    outcome = next (.str (x ++ y))
  endless : a.joins b → a.concatText? t.store = none ∨ b.concatText? t.store = none →
    outcome = .endless
  unruled : ¬a.joins b →
    outcome =
      Eval.fault (.unsupported (.binary (.arith .add)) (a.sortName ++ " and " ++ b.sortName)) t

/-- There is no rule with null, whatever stands at its side. -/
theorem coerced_null {op : NodeKind} (h : a = .null ∨ b = .null) :
    NodeKind.applyBinary.coerced op a b =
      .error (.unsupported op (a.sortName ++ " and " ++ b.sortName)) := by
  rcases h with rfl | rfl
  · rfl
  · rw [NodeKind.applyBinary.coerced]
    cases a <;> rfl

theorem null_of_str {v : Value} (h : v.fits .str) (hs : v.str?.isSome = false) : v = .null := by
  rcases Value.null_or_str h with rfl | ⟨x, rfl⟩
  · rfl
  · cases hs

/-- A text that is none is null. -/
theorem null_of_unjoined (ha : a.fits l.ty) (hb : b.fits r.ty) (h : ¬a.joins b) :
    (l.ty = .str → a = .null) ∧ (r.ty = .str → b = .null) := by
  obtain ⟨hx, hy⟩ : a.str?.isSome = false ∧ b.str?.isSome = false := by simpa [Value.joins] using h
  exact ⟨fun hl => null_of_str (hl ▸ ha) hx, fun hr => null_of_str (hr ▸ hb) hy⟩

theorem concatenated {k : Value → Eval Value} (hs : l.ty = .str ∨ r.ty = .str) (ha : a.fits l.ty)
    (hb : b.fits r.ty)
    (h :
      outcome =
        (Eval.ofExcept (NodeKind.applyBinary (.binary (.arith .add)) t.store a b) >>= k) t) :
    Concatenated a b t (k · t) outcome where
  joined hj x y hx hy := by
    rw [h, applyBinary_concat hj, concat, hx, hy]
    rfl
  endless hj hnone := by
    have hconcat : concat t.store a b = .error .endless := by
      unfold concat
      rcases hnone with hx | hy
      · rw [hx]
      · rw [hy]
        cases a.concatText? t.store <;> rfl
    rw [h, applyBinary_concat hj, hconcat]
    rfl
  unruled hj := by
    obtain ⟨hl, hr⟩ := null_of_unjoined ha hb hj
    have hnull := @coerced_null a b (.binary (.arith .add)) (hs.imp hl hr)
    have hplus : NodeKind.applyBinary (.binary (.arith .add)) t.store a b =
        NodeKind.applyBinary.coerced (.binary (.arith .add)) a b := if_neg hj
    rw [h, hplus, hnull]
    rfl

/-- A plus that a factory accepts with an operand of the type of texts, and a compound assignment
with one, join the texts of both operands as long as there is a text among them, where null has the
empty text. Where all operands of that type are null there is no rule, and the evaluation fails. -/
theorem text_concatenation (ev : Evaluator) {l r n : Node} {f : Option Lambda} {id : Nat}
    {s t : State} {a b : Value} (hs : l.ty = .str ∨ r.ty = .str) (ha : a.fits l.ty)
    (hb : b.fits r.ty) :
    (∀ u : State, Build.binary id (.binary (.arith .add)) l r none f = .ok n →
      ev.eval l s = .value a u →
      ev.eval r u = .value b t →
      n.ty = .str ∧ Concatenated a b t (fun v => .value v t) (ev.node n s)) ∧
    (∀ place : Place, Build.binary id (.binary (.compound .add)) l r none f = .ok n →
      ev.compoundOperands l r s = .value (place, a, b) t →
      n.ty = l.ty ∧ Concatenated a b t (fun v => (do ev.write place v; return v : Eval Value) t)
        (ev.node n s)) ∧
    (¬a.joins b → (l.ty = .str → a = .null) ∧ (r.ty = .str → b = .null)) := by
  refine ⟨fun u h hl hr => ?_, fun place h hoperands => ?_, null_of_unjoined ha hb⟩
  · obtain ⟨ty, rfl, hty⟩ := Build.binary_shape h
    have hstr : ty = .str := by
      simpa [Build.binaryType, Build.arithType, hs] using hty.symm
    refine ⟨hstr, concatenated (k := pure) hs ha hb ?_⟩
    change (ev.eval l >>= fun a => ev.eval r >>= fun b =>
      ev.applyBinary (.binary (.arith .add)) none a b) s = _
    rw [bind_pure]
    change Eval.bind _ _ s = _
    rw [Eval.bind, hl]
    change Eval.bind _ _ u = _
    rw [Eval.bind, hr]
    rfl
  · obtain ⟨ty, rfl, hty⟩ := Build.binary_shape h
    exact ⟨(Build.compoundType_ok hty).2.1, concatenated hs ha hb (Evaluator.compound_eq hoperands)⟩

/-- A text is joined to a variable of texts that is still null. -/
theorem null_and_text_joined :
    let ev := evaluator (Scripts.host {}) 1
    let x : Node := .param ⟨0, none, .str⟩
    let tail : Node := Build.constant 1 (.str "tail")
    let s (v : Value) (steps : Nat) : State :=
      { State.start none {} with env := .ofCaptures [(0, v)], steps }
    let plus : Node := .binary 2 (.arith .add) x tail none none .str
    let assignment : Node := .binary 2 (.compound .add) x tail none none .str
    x.ty = .str ∧ Value.null.fits x.ty ∧ (Value.str "tail").fits tail.ty ∧
      Build.binary 2 (.binary (.arith .add)) x tail none none = .ok plus ∧
      ev.node plus (s .null 0) = .value (.str "tail") (s .null 2) ∧
      Build.binary 2 (.binary (.compound .add)) x tail none none = .ok assignment ∧
      ev.node assignment (s .null 0) = .value (.str "tail") (s (.str "tail") 1) := by
  intro ev x tail s plus assignment
  have hx : Value.null.fits x.ty := rfl
  have htail : (Value.str "tail").fits tail.ty := rfl
  obtain ⟨hplus, -, -⟩ :=
    @text_concatenation ev x tail plus none 2 (s .null 0) (s .null 2) .null (.str "tail")
    (.inl rfl) hx htail
  obtain ⟨-, hassignment, -⟩ :=
    @text_concatenation ev x tail assignment none 2 (s .null 0) (s .null 1) .null
    (.str "tail") (.inl rfl) hx htail
  have hsum := (hplus (s .null 1) rfl rfl rfl).2.joined rfl "" "tail" rfl rfl
  have hstored := (hassignment (.slot ⟨0, none, .str⟩) rfl rfl).2.joined rfl "" "tail" rfl rfl
  exact ⟨rfl, hx, htail, rfl, hsum, rfl, hstored⟩

/-- Two operands of the type of texts, both of them null, have no sum. -/
theorem null_texts_unjoined :
    let x : Node := .constant 0 .null .str
    let plus : Node := .binary 1 (.arith .add) x x none none .str
    Build.constantTyped 0 .null .str = .ok x ∧
    Build.binary 1 (.binary (.arith .add)) x x none none = .ok plus ∧
      (eval (Scripts.host {}) 2 plus).run (State.start none {}) =
        some (.error (.fatal (.unsupportedOperand (.binary (.arith .add)) "null and null")),
          { State.start none {} with steps := 3 }) :=
  ⟨rfl, rfl, rfl⟩

end ExprTree
