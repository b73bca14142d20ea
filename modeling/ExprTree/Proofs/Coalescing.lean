import ExprTree.Host.Scripted
import ExprTree.Proofs.LocationTypes

/-! The type of a coalescing is that of its right operand, or of its conversion if it has one. One
operand's value passes through as it is, the left one's if there is no conversion and else the right
one's, and whether that is of the type is not asked. -/
namespace ExprTree

variable {l r n : Node} {m : Option Method} {f : Option Lambda} {id : Nat} {a v : Value}
  {s t u : State} {ty source : Ty}

theorem Build.coalesce_ok (h : Build.binary id (.binary .coalesce) l r m f = .ok n) :
    n = .binary id .coalesce l r m f ((f.map Lambda.ret).getD r.ty) ∧ l.ty.isReference ∧
      ∀ g ∈ f, Build.Storable (g.params.map Param.ty) [l] := by
  obtain ⟨ty, rfl, hty⟩ := Build.binary_shape h
  simp only [Build.binaryType, Build.bind_ok, Build.require_ok] at hty
  obtain ⟨_, hl, hty⟩ := hty
  cases f with
  | none =>
    cases hty
    exact ⟨rfl, hl, by simp⟩
  | some g =>
    simp only [Build.bind_ok, Build.checkArguments_ok, Build.pure_ok] at hty
    obtain ⟨_, hg, rfl⟩ := hty
    refine ⟨rfl, hl, fun k hk => ?_⟩
    cases hk
    exact hg

/-! ### Values of a type -/

namespace Value

/-- Every type but `object` is the type of some value. -/
theorem exists_of_type (h : source ≠ .object) :
    ∃ v : Value, ¬v.isNull ∧ v.runtimeType = source := by
  cases source with
  | object => exact absurd rfl h
  | void => exact ⟨.void, nofun, rfl⟩
  | array e => exact ⟨.array e 0, nofun, rfl⟩
  | list e => exact ⟨.list e 0, nofun, rfl⟩
  | fn ps ret => exact ⟨.delegate ⟨ps, ret⟩ 0, nofun, rfl⟩
  | cls c => exact ⟨.object c 0, nofun, rfl⟩
  | str => exact ⟨.str "", nofun, rfl⟩
  | expr => exact ⟨.expr (.default 0 .void), nofun, rfl⟩
  | bool => exact ⟨zero .bool, nofun, rfl⟩
  | char => exact ⟨zero .char, nofun, rfl⟩
  | int k => exact ⟨zero (.int k), nofun, rfl⟩
  | float32 => exact ⟨zero .float32, nofun, rfl⟩
  | float64 => exact ⟨zero .float64, nofun, rfl⟩
  | decimal => exact ⟨zero .decimal, nofun, rfl⟩

theorem fits_of_storable (hv : v.fits source) (h : ty = .void ∨ ty.accepts source) : v.fits ty := by
  rcases h with rfl | h
  · exact fits_void
  · exact fits_of_accepts h hv

/-- A type takes all the values of another one, null apart, only if that is storable there. -/
theorem exists_unfit (hv : ty ≠ .void) (ha : ¬ty.accepts source) :
    ∃ v : Value, ¬v.isNull ∧ v.fits source ∧ ¬v.fits ty := by
  have hunfit {v : Value} (hn : ¬v.isNull) (h : ¬ty.accepts v.runtimeType) : ¬v.fits ty := by
    rw [fits_iff]
    rintro (h' | ⟨rfl, -⟩ | h')
    · exact hv h'
    · exact hn rfl
    · exact h h'
  by_cases ho : source = .object
  · subst ho
    -- No type but `object` takes both.
    by_cases hb : ty.accepts .bool
    · refine ⟨.char 'a', nofun, rfl, hunfit nofun fun hc => ha ?_⟩
      rcases Ty.accepts_iff.mp hb with rfl | ⟨rfl, -⟩ | ⟨_, _, -, hcls, -⟩
      · cases hc
      · rfl
      · cases hcls
    · exact ⟨.bool true, nofun, rfl, hunfit nofun hb⟩
  · obtain ⟨v, hn, rfl⟩ := exists_of_type ho
    exact ⟨v, hn, fits_runtimeType, hunfit hn ha⟩

end Value

/-! ### Runs -/

namespace Evaluator

variable {ev : Evaluator}

theorem coalesce_runs (h : ev.eval l s = .value a t) :
    ev.node (.binary id .coalesce l r m f ty) s =
      (if a.isNull then ev.eval r else match f with
        | some g => ev.convertBy g a
        | none => pure a : Eval Value) t := by
  have hbind (g : Value → Eval Value) : Eval.bind (ev.eval l) g s = g a t := by
    rw [Eval.bind, h]
  exact hbind _

variable {g : Lambda} {w : Value}

/-- The lambda is called on a value of what its factory checked it for. -/
theorem ConversionTyped.fits (hg : ev.ConversionTyped g)
    (hs : Build.Storable (g.params.map Param.ty) [l]) (ha : a.fits l.ty)
    (h : ev.convertBy g a t = .value v u) : v.fits g.ret := by
  have hargs := storable_fits hs (.cons ha .nil)
  rw [List.forall₂_map_left_iff] at hargs
  exact hg _ _ _ _ hargs h

end Evaluator

/-- A coalescing has the type of its conversion, or of its right operand if there is none. The right
operand's value is of it without a conversion, and what the conversion gives is. Of the other two,
the value passes through as it is: it is of the type if that of its operand is storable there, and
if not, the operand's type has values that are not. -/
theorem coalescing_typed (ev : Evaluator) (h : Build.binary id (.binary .coalesce) l r m f = .ok n)
    (hf : ∀ g ∈ f, ev.ConversionTyped g) :
    let passed := if f.isSome then r else l
    n.ty = (f.map Lambda.ret).getD r.ty ∧
    (∀ (s t u : State) (a v : Value), ev.eval l s = .value a t → a.fits l.ty →
      (∀ b w, ev.eval r t = .value b w → b.fits r.ty) → ev.node n s = .value v u →
      (a.isNull ≠ f.isSome → v.fits n.ty) ∧
      (a.isNull = f.isSome → ev.eval passed (if a.isNull then t else s) = .value v u) ∧
      (n.ty = .void ∨ n.ty.accepts passed.ty → v.fits n.ty)) ∧
    (¬(n.ty = .void ∨ n.ty.accepts passed.ty) → ∃ v : Value, ¬v.isNull ∧ v.fits passed.ty ∧
      ¬v.fits n.ty) := by
  obtain ⟨rfl, hl, hg⟩ := Build.coalesce_ok h
  intro passed
  refine ⟨rfl, fun s t u a v hleft ha hb hv => ?_, fun hn => ?_⟩
  · rw [Evaluator.coalesce_runs hleft] at hv
    change (a.isNull ≠ f.isSome → v.fits ((f.map Lambda.ret).getD r.ty)) ∧ _ ∧
      ((f.map Lambda.ret).getD r.ty = .void ∨ ((f.map Lambda.ret).getD r.ty).accepts passed.ty → _)
    cases hnull : a.isNull with
    | true =>
      rw [hnull, if_pos rfl] at hv
      cases f with
      | none => exact ⟨fun _ => hb v u hv, nofun, fun _ => hb v u hv⟩
      | some g =>
        exact ⟨fun hne => absurd rfl hne, fun _ => hv, Value.fits_of_storable (hb v u hv)⟩
    | false =>
      rw [hnull, if_neg Bool.false_ne_true] at hv
      cases f with
      | none =>
        cases hv
        exact ⟨fun hne => absurd rfl hne, fun _ => hleft, Value.fits_of_storable ha⟩
      | some g =>
        have hret : v.fits g.ret := (hf g rfl).fits (hg g rfl) ha hv
        exact ⟨fun _ => hret, nofun, fun _ => hret⟩
  · obtain ⟨hvoid, hacc⟩ := not_or.mp hn
    exact Value.exists_unfit hvoid hacc

/-- Every text is turned into seven, and where there is none, one passes through. -/
theorem seven_or_one :
    let number (n : Int) : Value := .int .i32 (.wrap .i32 n)
    let ev := evaluator (Scripts.host {}) 1
    let x : Node := .param ⟨0, none, .str⟩
    let one : Node := .constant 1 (number 1) (.int .i32)
    let seven : Lambda :=
      ⟨2, none, .constant 3 (number 7) (.int .i32), [⟨4, none, .str⟩], .int .i32⟩
    let n : Node := .binary 5 .coalesce x one none (some seven) (.int .i32)
    let s (v : Value) (steps : Nat) : State :=
      { State.start none {} with env := .ofCaptures [(0, v)], steps }
    Build.binary 5 (.binary .coalesce) x one none (some seven) = .ok n ∧ ev.ConversionTyped seven ∧
      ev.node n (s (.str "a") 0) = .value (number 7) (s (.str "a") 1) ∧ (number 7).fits n.ty ∧
      ev.node n (s .null 0) = .value (number 1) (s .null 2) ∧ (number 1).fits n.ty := by
  intro number ev x one seven n s
  have htyped : ev.ConversionTyped seven := by
    intro a ⟨env, handling, steps, limit, store⟩ v t _ h
    rcases limit with _ | _ | k <;> cases h <;> rfl
  have htext : ev.node n (s (.str "a") 0) = .value (number 7) (s (.str "a") 1) := rfl
  have hnull : ev.node n (s .null 0) = .value (number 1) (s .null 2) := rfl
  have hone (x b : Value) (w : State) (h : ev.eval one (s x 1) = .value b w) : b.fits one.ty := by
    cases h
    rfl
  obtain ⟨-, hruns, -⟩ :=
    @coalescing_typed x one n none (some seven) 5 ev rfl fun _ h => Option.some.inj h ▸ htyped
  obtain ⟨hseven, -, -⟩ :=
    hruns (s (.str "a") 0) (s (.str "a") 1) _ (.str "a") _ rfl rfl (hone _) htext
  obtain ⟨-, -, hpassed⟩ := hruns (s .null 0) (s .null 1) _ .null _ rfl rfl (hone _) hnull
  exact ⟨rfl, htyped, htext, hseven nofun, hnull, hpassed (.inr rfl)⟩

/-- A text passes through a coalescing of the type of integers, on the left of one without a
conversion and on the right of one with a conversion. -/
theorem texts_of_integer_type :
    let text : Node := Build.constant 0 (.str "x")
    let null : Node := .constant 1 .null .str
    let one : Node := .constant 2 (.int .i32 (.wrap .i32 1)) (.int .i32)
    let first : Lambda := ⟨3, none, one, [⟨4, none, .str⟩], .int .i32⟩
    let left : Node := .binary 5 .coalesce text one none none (.int .i32)
    let right : Node := .binary 6 .coalesce null text none (some first) (.int .i32)
    let run (n : Node) := (eval (Scripts.host {}) 2 n).run (State.start none {})
    Build.binary 5 (.binary .coalesce) text one none none = .ok left ∧
      run left = some (.ok (.str "x"), { State.start none {} with steps := 2 }) ∧
      ¬(Value.str "x").fits left.ty ∧
    Build.binary 6 (.binary .coalesce) null text none (some first) = .ok right ∧
      run right = some (.ok (.str "x"), { State.start none {} with steps := 3 }) ∧
      ¬(Value.str "x").fits right.ty :=
  ⟨rfl, rfl, nofun, rfl, rfl, nofun⟩

end ExprTree
