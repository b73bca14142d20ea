import ExprTree.Host.Scripted
import ExprTree.Proofs.Assignments
import ExprTree.Proofs.CheckedArithmetic
import ExprTree.Proofs.OperatorRules
import ExprTree.Proofs.Writes

/-! The type of what compound assignments, increments and decrements store. It is that of the
target, but where a native plus finds a text on its right: whether the target may hold a text is not
asked. -/
namespace ExprTree

variable {l r n x : Node} {m : Option Method} {f : Option Lambda} {s t u : State}
  {a b v w old : Value} {id : Nat} {ty : Ty}

namespace Eval

variable {α β : Type} {e : Eval α} {g : α → Eval β}

theorem bind_value {y : β} :
    (e >>= g) s = .value y t ↔ ∃ z u, e s = .value z u ∧ g z u = .value y t := by
  change Eval.bind e g s = _ ↔ _
  unfold Eval.bind
  cases e s <;> simp

theorem ofExcept_value {r : Except Fault α} {y : α} :
    ofExcept r s = .value y t ↔ r = .ok y ∧ s = t := by
  rcases r with x | z
  · refine iff_of_false ?_ (by simp)
    cases x <;> exact nofun
  · change Outcome.value z s = _ ↔ _
    simp

end Eval

/-! ### Places -/

namespace Fields

variable {fs : Fields} {name : String}

theorem get?_set : (fs.set name v).get? name = some v := by
  induction fs with
  | nil => simp [set, get?]
  | cons f fs ih =>
    obtain ⟨key, w⟩ := f
    unfold set
    split
    · simp [get?]
    split
    · simp [get?]
    · rename_i hne _
      rw [get?, if_neg hne, ih]

end Fields

namespace Store

variable {st : Store} {addr slot : Nat} {name : String}

theorem field?_setField (h : (st.setField addr name v).field? addr name = some w) : w = v := by
  unfold field? fields setField at h
  rw [Array.getElem?_modify, if_pos rfl] at h
  cases ho : st.objects[addr]? with
  | none => simp [ho, Fields.get?] at h
  | some fs =>
    rw [ho] at h
    exact Option.some.inj (h.symm.trans Fields.get?_set)

theorem static?_setStatic (h : (st.setStatic slot v).static? slot = some w) : w = v := by
  unfold static? setStatic at h
  obtain ⟨hlt, h⟩ := Array.getElem?_eq_some_iff.mp h
  simpa using h.symm

end Store

namespace Place

variable {ev : Evaluator} {pl : Place}

/-- What the place holds, where that is not left to the host. -/
def held? (t : State) : Place → Option Value
  | .slot p => t.env.lookup p.id
  | .element addr position => (t.store.arrayItems addr)[position]?
  | .member target m => match m.body, target with
    | .field, some (.object _ addr) => t.store.field? addr m.name
    | .static cell, _ => t.store.static? cell
    | _, _ => none
  | .item .. => none

theorem held_slot {p : Param} (h : Evaluator.assign p v u = .value () t) :
    t.env.lookup p.id = some v := by
  unfold Evaluator.assign at h
  split at h
  · rename_i env henv
    cases h
    exact (Environment.assign?_slots henv).1
  · cases h

theorem writeElement_eq {addr position : Nat} : Evaluator.writeElement addr position v u =
    (if position < (u.store.arrayItems addr).size then Eval.withStore fun s =>
      ((), s.setArrayItem addr position v)
    else Eval.fault (.indexOutOfRange position (u.store.arrayItems addr).size) : Eval Unit) u := rfl

theorem held_element {addr position : Nat}
    (h : Evaluator.writeElement addr position v u = .value () t) :
    (t.store.arrayItems addr)[position]? = some v := by
  rw [writeElement_eq] at h
  split at h
  · rename_i hlt
    cases h
    exact (Store.setArrayItem_items hlt).1
  · cases h

theorem held_member {target : Option Value} {k : Member} (h : ev.set k target v u = .value () t) :
    ∀ w ∈ (Place.member target k).held? t, w = v := by
  intro w hw
  obtain ⟨i, name, mty, isStatic, canWrite, body⟩ := k
  unfold held? at hw
  dsimp only at hw
  split at hw
  · cases h
    exact Store.field?_setField hw
  · cases h
    exact Store.static?_setStatic hw
  · cases hw

/-- A place that was written holds what was written. -/
theorem held_of_write (h : ev.write pl v u = .value () t) : ∀ w ∈ pl.held? t, w = v := by
  intro w hw
  cases pl with
  | slot p => exact Option.some.inj (hw.symm.trans (held_slot h))
  | element addr position => exact Option.some.inj (hw.symm.trans (held_element h))
  | member target k => exact held_member h w hw
  | item target i args => cases hw

end Place

/-! ### What is stored -/

namespace Evaluator

variable (ev : Evaluator) {place : Place}

/-- The place that a step changes, and its value. -/
def stepOperand (target : Node) : Eval (Place × Value) := do
  let place ← ev.place target
  let old ← ev.read place
  return (place, old)

/-- The method gives values of the type that it declares. -/
def MethodTyped (m : Method) : Prop :=
  ∀ args s v t, List.Forall₂ (fun p (a : Value) => a.fits p) m.params args →
  ev.method m none args s = .value v t → v.fits m.ret

/-- The conversion gives values of the type that it declares. -/
def ConversionTyped (f : Lambda) : Prop :=
  ∀ a s v t, List.Forall₂ (fun p (a : Value) => a.fits p.ty) f.params [a] →
  ev.convertBy f a s = .value v t → v.fits f.ret

variable {ev}

theorem step_runs {step : UnaryOp} {a : UnaryArith} (ho : step.step? = some a)
    (h : ev.stepOperand x s = .value (place, old) t) :
    ev.node (.unary id step (some x) m ty) s =
      (do
        let v ← ev.applyUnary (.unary (.arith a)) m old
        ev.write place v
        return if step.isPost then old else v : Eval Value) t := by
  have hstep : ev.node (.unary id step (some x) m ty) = ev.stepOperand x >>= fun y =>
      (do
        let v ← ev.applyUnary (.unary (.arith a)) m y.2
        ev.write y.1 v
        return if step.isPost then y.2 else v : Eval Value) := by
    cases step <;> cases ho
    all_goals simp only [node, evalUnary, Evaluator.step, stepOperand, UnaryOp.isPost,
      bind_assoc, pure_bind]
    all_goals rfl
  rw [hstep]
  change Eval.bind _ _ s = _
  rw [Eval.bind, h]

end Evaluator

/-- Whether a native plus finds a text on its right for a target that does not hold texts. -/
def FindsText (m : Option Method) (op : Arith) (target : Ty) (b : Value) : Prop :=
  m = none ∧ op = .add ∧ b.str?.isSome ∧ target ≠ .void ∧ target ≠ .object ∧ target ≠ .str

theorem str_fits_iff {text : String} :
    (Value.str text).fits ty ↔ ty = .void ∨ ty = .object ∨ ty = .str := by
  refine ⟨Value.str_fits, ?_⟩
  rintro (rfl | rfl | rfl) <;> rfl

variable {op : Arith} {st : Store}

/-- But for that, a native operator makes of a value another one of its type. -/
theorem applyBinary_fits_iff (ha : a.fits ty)
    (h : NodeKind.applyBinary (.binary (.arith op)) st a b = .ok v) :
    v.fits ty ↔ ¬FindsText none op ty b := by
  have hv := applyBinary_gives.of_ok h
  by_cases hs : op = .add ∧ (a.str?.isSome || b.str?.isSome)
  · obtain ⟨rfl, hs⟩ := hs
    rw [NodeKind.binaryTy, if_pos ⟨rfl, hs⟩] at hv
    obtain ⟨text, rfl⟩ := Value.str?_isSome.mp (str?_of_type hv)
    rw [str_fits_iff]
    -- A target whose value is a text holds texts, so only the right operand can bring in one that
    -- does not fit.
    have hleft : a.str?.isSome → ty = .void ∨ ty = .object ∨ ty = .str := by
      intro ht
      obtain ⟨x, rfl⟩ := Value.str?_isSome.mp ht
      exact Value.str_fits ha
    have hboth : a.str?.isSome ∨ b.str?.isSome := Bool.or_eq_true_iff.mp hs
    unfold FindsText
    tauto
  · rw [NodeKind.binaryTy, if_neg (by simpa using hs)] at hv
    refine iff_of_true (Value.fits_congr hv ha) ?_
    rintro ⟨-, hop, hb, -⟩
    exact hs ⟨hop, by rw [hb, Bool.or_true]⟩

/-- Values of the arguments' types are of those of the parameters. -/
theorem storable_fits {ps : List Ty} {args : List Node} {vs : List Value}
    (h : Build.Storable ps args) (hv : List.Forall₂ (fun n (v : Value) => v.fits n.ty) args vs) :
    List.Forall₂ (fun p (v : Value) => v.fits p) ps vs := by
  induction h generalizing vs with
  | nil =>
    cases hv
    exact .nil
  | cons hp _ ih =>
    cases hv with
    | cons hv hvs => exact .cons (Value.fits_of_accepts hp hv) (ih hvs)

namespace Evaluator

variable {ev : Evaluator}

/-- What a compound assignment makes is of its target's type, as it declares or as its method or
conversion does. -/
theorem combine_fits (ht : Build.binaryType (.compound op) l r m f = .ok ty)
    (hm : ∀ k ∈ m, ev.MethodTyped k) (hf : ∀ g ∈ f, ev.ConversionTyped g) (ha : a.fits l.ty)
    (hb : b.fits r.ty) (h : ev.combine op m f a b t = .value v u) :
    v.fits l.ty ↔ ¬FindsText m op l.ty b := by
  obtain ⟨-, -, ⟨rfl, -⟩ | ⟨k, rfl, hk, hret⟩⟩ := Build.compoundType_ok ht
  · obtain ⟨w, z, happly, hpure⟩ := Eval.bind_value.mp h
    cases hpure
    have happly :
        Eval.ofExcept (NodeKind.applyBinary (.binary (.arith op)) t.store a b) t = .value v u :=
      happly
    exact applyBinary_fits_iff ha (Eval.ofExcept_value.mp happly).1
  · refine iff_of_true ?_ fun hfinds => nomatch hfinds.1
    obtain ⟨w, z, hw, h⟩ := Eval.bind_value.mp h
    have hwret : w.fits k.ret := hm k rfl _ _ _ _ (storable_fits hk (.cons ha (.cons hb .nil))) hw
    rcases hret with ⟨rfl, hret⟩ | ⟨g, p, rfl, hp, hret, hg⟩
    · cases h
      exact hret ▸ hwret
    · exact Value.fits_of_accepts hg (hf g rfl _ _ _ _ (hp ▸ .cons (hret ▸ hwret) .nil) h)

/-- What a step makes is of its target's type. -/
theorem stepped_fits {step : UnaryOp} {op : UnaryArith} (ho : step.step? = some op)
    {target : Option Ty} (ht : Build.unaryType step x target m = .ok ty)
    (hm : ∀ k ∈ m, ev.MethodTyped k) (ha : a.fits x.ty)
    (h : ev.applyUnary (.unary (.arith op)) m a t = .value v u) : v.fits x.ty := by
  obtain ⟨-, -, native, hnative⟩ := Build.stepType_ok (ho ▸ rfl) ht
  cases m with
  | none =>
    have happly :
        Eval.ofExcept (NodeKind.applyUnary (.unary (.arith op)) t.store a) t = .value v u :=
      h
    have hop : NodeKind.unary (.arith op) ≠ .unary (.arith .arrayLength) := by
      cases step <;> cases ho <;> nofun
    exact ((applyUnary_fits hop ha).of_ok (Eval.ofExcept_value.mp happly).1).1
  | some k =>
    obtain ⟨⟨-, hk⟩, hret⟩ := Build.methodOr_some.mp hnative
    exact hret ▸ hm k rfl _ _ _ _ (storable_fits hk (.cons ha .nil)) h

end Evaluator

/-- An accepted compound assignment of any form stores, and has for its value, what is of the type
of its target, but for a native plus that finds a text on its right for a target of another type. An
accepted increment or decrement always does. What is stored is then found in the place. -/
theorem assignments_keep_types (ev : Evaluator) :
    (∀ (id : Nat) (op : Arith) (l r n : Node) (m : Option Method) (f : Option Lambda),
      Build.binary id (.binary (.compound op)) l r m f = .ok n → (∀ k ∈ m, ev.MethodTyped k) →
      (∀ g ∈ f, ev.ConversionTyped g) → ∀ (s t : State) (place : Place) (a b : Value),
      ev.compoundOperands l r s = .value (place, a, b) t → a.fits l.ty → b.fits r.ty →
      n.ty = l.ty ∧
      ev.node n s = (do let v ← ev.combine op m f a b; ev.write place v; return v : Eval Value) t ∧
      (∀ v u, ev.combine op m f a b t = .value v u → (v.fits l.ty ↔ ¬FindsText m op l.ty b)) ∧
      ∀ v u, ev.node n s = .value v u → (v.fits n.ty ↔ ¬FindsText m op l.ty b) ∧
      ∀ w ∈ place.held? u, w = v) ∧
    ∀ (id : Nat) (step : UnaryOp) (op : UnaryArith) (x n : Node) (m : Option Method)
      (target : Option Ty),
      step.step? = some op → Build.unary id (.unary step) (some x) target m = .ok n →
        (∀ k ∈ m, ev.MethodTyped k) →
      ∀ (s t : State) (place : Place) (old : Value), ev.stepOperand x s = .value (place, old) t →
      old.fits x.ty →
      n.ty = x.ty ∧
      ev.node n s = (do
        let v ← ev.applyUnary (.unary (.arith op)) m old
        ev.write place v
        return if step.isPost then old else v : Eval Value) t ∧
      (∀ v u, ev.applyUnary (.unary (.arith op)) m old t = .value v u → v.fits x.ty) ∧
      ∀ v u, ev.node n s = .value v u → v.fits n.ty ∧ ∀ w ∈ place.held? u, w.fits x.ty := by
  constructor
  · intro id op l r n m f h hm hf s t place a b hoperands ha hb
    obtain ⟨ty, rfl, hty⟩ := Build.binary_shape h
    obtain rfl : ty = l.ty := (Build.compoundType_ok hty).2.1
    have hruns : ev.node (.binary id (.compound op) l r m f l.ty) s =
        (do let v ← ev.combine op m f a b; ev.write place v; return v : Eval Value) t :=
      Evaluator.compound_runs hoperands
    have hstored (v u) (hv : ev.combine op m f a b t = .value v u) :=
      Evaluator.combine_fits hty hm hf ha hb hv
    refine ⟨rfl, hruns, hstored, fun v u hv => ?_⟩
    rw [hruns] at hv
    obtain ⟨w, z, hw, hv⟩ := Eval.bind_value.mp hv
    obtain ⟨_, z', hwrite, hpure⟩ := Eval.bind_value.mp hv
    cases hpure
    exact ⟨hstored _ _ hw, Place.held_of_write hwrite⟩
  · intro id step op x n m target ho h hm s t place old hoperand hold
    have hthrow : step ≠ .throw := by
      rintro rfl
      cases ho
    obtain ⟨ty, rfl, hty⟩ := Build.unary_shape hthrow h
    obtain rfl : ty = x.ty := (Build.stepType_ok (ho ▸ rfl) hty).2.1
    have hruns : ev.node (.unary id step (some x) m x.ty) s =
        (do
          let v ← ev.applyUnary (.unary (.arith op)) m old
          ev.write place v
          return if step.isPost then old else v : Eval Value) t :=
      Evaluator.step_runs ho hoperand
    have hstored (v u) (hv : ev.applyUnary (.unary (.arith op)) m old t = .value v u) :=
      Evaluator.stepped_fits ho hty hm hold hv
    refine ⟨rfl, hruns, hstored, fun v u hv => ?_⟩
    rw [hruns] at hv
    obtain ⟨w, z, hw, hv⟩ := Eval.bind_value.mp hv
    obtain ⟨_, z', hwrite, hpure⟩ := Eval.bind_value.mp hv
    cases hpure
    refine ⟨?_, fun w' hw' => Place.held_of_write hwrite w' hw' ▸ hstored _ _ hw⟩
    cases step.isPost with
    | true => exact hold
    | false => exact hstored _ _ hw

/-- A method takes a text and gives the integer that is stored; an increment has the integer of
before. -/
theorem sum_and_successor_stored :
    let number (n : Int) : Value := .int .i32 (.wrap .i32 n)
    let host : Host := { Scripts.host {} with method := fun _ _ _ => .pure (number 7) }
    let ev := evaluator host 1
    let k : Method := ⟨0, "sum", [.int .i32, .str], .int .i32, true, .host⟩
    let p : Param := ⟨0, none, .int .i32⟩
    let text : Node := Build.constant 1 (.str "a")
    let s (n : Int) (steps : Nat) : State :=
      { State.start none {} with env := .ofCaptures [(0, number n)], steps }
    let sum : Node := .binary 2 (.compound .add) (.param p) text (some k) none (.int .i32)
    let successor : Node := .unary 3 .postIncrement (some (.param p)) none (.int .i32)
    Build.binary 2 (.binary (.compound .add)) (.param p) text (some k) none = .ok sum ∧
    ev.MethodTyped k ∧
      ev.node sum (s 1 0) = .value (number 7) (s 7 1) ∧ (number 7).fits sum.ty ∧
      Build.unary 3 (.unary .postIncrement) (some (.param p)) none none = .ok successor ∧
      ev.node successor (s 1 0) = .value (number 1) (s 2 0) ∧ (number 1).fits successor.ty ∧
      (Place.slot p).held? (s 2 0) = some (number 2) ∧ (number 2).fits (.int .i32) := by
  intro number host ev k p text s sum successor
  have hk : ev.MethodTyped k := by
    intro args u v t _ h
    cases h
    rfl
  have hsum : ev.node sum (s 1 0) = .value (number 7) (s 7 1) := rfl
  have hsuccessor : ev.node successor (s 1 0) = .value (number 1) (s 2 0) := rfl
  have hheld : (Place.slot p).held? (s 2 0) = some (number 2) := rfl
  obtain ⟨hcompounds, hsteps⟩ := assignments_keep_types ev
  obtain ⟨-, -, -, hstored⟩ := hcompounds 2 .add (.param p) text sum (some k) none rfl
    (fun _ h => Option.some.inj h ▸ hk) nofun (s 1 0) (s 1 1) (.slot p) (number 1)
    (.str "a") rfl rfl rfl
  obtain ⟨-, -, -, hstepped⟩ :=
    hsteps 3 .postIncrement .increment (.param p) successor none none rfl rfl nofun (s 1 0)
    (s 1 0) (.slot p) (number 1) rfl rfl
  have hseven : (number 7).fits sum.ty := (hstored _ _ hsum).1.mpr fun h => nomatch h.1
  obtain ⟨hfits, hplace⟩ := hstepped _ _ hsuccessor
  exact ⟨rfl, hk, hsum, hseven, rfl, hsuccessor, hfits, hheld, hplace _ hheld⟩

/-- A text on the right of a plus is accepted for an integer variable, which is a text from there
on. -/
theorem integer_variable_made_text :
    let p : Param := ⟨0, none, .int .i32⟩
    let text : Node := Build.constant 1 (.str "a")
    let plus : Node := .binary 2 (.compound .add) (.param p) text none none (.int .i32)
    let s (v : Value) (steps : Nat) : State :=
      { State.start none {} with env := .ofCaptures [(0, v)], steps }
    let one : Value := .int .i32 (.wrap .i32 1)
    Build.binary 2 (.binary (.compound .add)) (.param p) text none none = .ok plus ∧ one.fits p.ty ∧
      (eval (Scripts.host {}) 2 plus).run (s one 0) = some (.ok (.str "1a"), s (.str "1a") 2) ∧
      ¬(Value.str "1a").fits p.ty :=
  ⟨rfl, rfl, rfl, nofun⟩

end ExprTree
