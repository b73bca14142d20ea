import ExprTree.Host.Scripted
import ExprTree.Proofs.Concatenation
import ExprTree.Proofs.ShownItems
import ExprTree.Proofs.Typing
import Mathlib.Data.Finset.Card
import Mathlib.Logic.Relation

/-! Where the text of a value ends. The text of an array has those of its items in it, and an array
may come to be an item of itself. -/
namespace ExprTree

variable {s : Store}

namespace Store

variable {v : Value} {a b n m : Nat}

/-- The text of the first array has that of the second one in it. -/
def Includes (s : Store) (a b : Nat) : Prop := ∃ v ∈ s.arrayItems a, v.Shows b

/-- The text of the value goes through the array. -/
def Leads (s : Store) (v : Value) (b : Nat) : Prop :=
  ∃ a, v.Shows a ∧ Relation.ReflTransGen s.Includes a b

/-- The array is among those that its own text goes through. -/
def Circular (s : Store) (a : Nat) : Prop := Relation.TransGen s.Includes a a

theorem arrayText_isSome :
    (s.arrayText (n + 1) a).isSome ↔ ∀ b, s.Includes a b → (s.arrayText n b).isSome := by
  simp only [arrayText, Option.bind_eq_bind, Option.isSome_bind, Option.pure_def,
    Option.isSome_some, any_const, Bool.and_true, isSome_mapM, List.all_eq_true,
    Array.mem_toList_iff, Value.textWith_isSome]
  constructor
  · rintro h b ⟨v, hv, hb⟩
    exact h v hv b hb
  · intro h v hv b hb
    exact h b ⟨v, hv, hb⟩

/-- A text that is there stays the same at a greater depth. -/
theorem arrayText_succ (h : (s.arrayText n a).isSome) :
    s.arrayText (n + 1) a = s.arrayText n a := by
  induction n generalizing a with
  | zero => cases h
  | succ n ih =>
    rw [arrayText_isSome] at h
    have hitems : (s.arrayItems a).toList.mapM (·.textWith s (s.arrayText (n + 1))) =
        (s.arrayItems a).toList.mapM (·.textWith s (s.arrayText n)) := by
      refine mapM_congr rfl fun v hv => Value.textWith_congr fun b hb => ih (h b ?_)
      exact ⟨v, Array.mem_toList_iff.mp hv, hb⟩
    rw [arrayText, arrayText, hitems]

theorem arrayText_le (h : (s.arrayText n a).isSome) (hm : n ≤ m) :
    s.arrayText m a = s.arrayText n a := by
  induction m, hm using Nat.le_induction with
  | base => rfl
  | succ m _ ih =>
    rw [← ih] at h ⊢
    exact arrayText_succ h

/-! ### Circles -/

theorem arrayText_circular (h : s.Circular a) : s.arrayText n a = none := by
  induction n generalizing a with
  | zero => rfl
  | succ n ih =>
    obtain ⟨b, hab, hba⟩ := Relation.TransGen.head'_iff.mp h
    rw [← Option.not_isSome_iff_eq_none, arrayText_isSome]
    intro hsome
    have hb := hsome b hab
    rw [ih (.tail' hba hab)] at hb
    cases hb

theorem arrayText_leads (h : Relation.ReflTransGen s.Includes a b) (hb : s.Circular b) :
    s.arrayText n a = none := by
  induction h using Relation.ReflTransGen.head_induction_on generalizing n with
  | refl => exact arrayText_circular hb
  | head hac _ ih =>
    cases n with
    | zero => rfl
    | succ n =>
      rw [← Option.not_isSome_iff_eq_none, arrayText_isSome]
      intro hsome
      have hc := hsome _ hac
      rw [ih] at hc
      cases hc

theorem Includes.lt (h : s.Includes a b) : a < s.arrays.size := by
  obtain ⟨v, hv, -⟩ := h
  by_contra ha
  rw [arrayItems, Array.getElem?_eq_none (Nat.le_of_not_lt ha)] at hv
  exact absurd hv (Array.not_mem_empty v)

/-- A way through more arrays than there are comes back to one of them. The arrays of the way so far
are `seen`. -/
theorem exists_circular (seen : Finset Nat) (hseen : ∀ x ∈ seen, Relation.TransGen s.Includes x a)
    (hsub : seen ⊆ Finset.range s.arrays.size) (hn : s.arrays.size < n + seen.card)
    (h : s.arrayText n a = none) :
    ∃ b, Relation.ReflTransGen s.Includes a b ∧ s.Circular b := by
  induction n generalizing a seen with
  | zero =>
    have hcard := Finset.card_le_card hsub
    rw [Finset.card_range] at hcard
    omega
  | succ n ih =>
    by_cases ha : a ∈ seen
    · exact ⟨a, .refl, hseen a ha⟩
    · rw [← Option.not_isSome_iff_eq_none, arrayText_isSome] at h
      simp only [not_forall] at h
      obtain ⟨b, hab, hb⟩ := h
      have hthrough : ∀ x ∈ insert a seen, Relation.TransGen s.Includes x b := by
        intro x hx
        rcases Finset.mem_insert.mp hx with rfl | hx
        · exact .single hab
        · exact (hseen x hx).tail hab
      obtain ⟨c, hbc, hc⟩ := ih (insert a seen) hthrough
        (Finset.insert_subset (Finset.mem_range.mpr hab.lt) hsub)
        (by rw [Finset.card_insert_of_notMem ha]; omega)
        (Option.not_isSome_iff_eq_none.mp hb)
      exact ⟨c, .head hab hbc, hc⟩

theorem textOfArray_isSome :
    (s.textOfArray a).isSome ↔ ∀ b, Relation.ReflTransGen s.Includes a b → ¬s.Circular b := by
  constructor
  · intro hsome b hab hb
    rw [textOfArray, arrayText_leads hab hb] at hsome
    cases hsome
  · intro hnone
    by_contra hsome
    have htext : s.arrayText (s.arrays.size + 1) a = none := Option.not_isSome_iff_eq_none.mp hsome
    obtain ⟨b, hab, hb⟩ := exists_circular ∅ (by simp) (by simp) (by simp) htext
    exact hnone b hab hb

end Store

namespace Value

variable {v w : Value} {n : Nat}

theorem text?_isSome : (v.text? s).isSome ↔ ∀ b, s.Leads v b → ¬s.Circular b := by
  rw [text?, textWith_isSome]
  constructor
  · rintro hsome b ⟨a, ha, hab⟩
    exact Store.textOfArray_isSome.mp (hsome a ha) b hab
  · intro hnone a ha
    refine Store.textOfArray_isSome.mpr fun b hab => ?_
    exact hnone b ⟨a, ha, hab⟩

/-- Without an end at any depth. -/
theorem textWith_circular {b : Nat} (h : s.Leads v b) (hb : s.Circular b) :
    v.textWith s (s.arrayText n) = none := by
  obtain ⟨a, ha, hab⟩ := h
  rw [← Option.not_isSome_iff_eq_none, textWith_isSome]
  intro hsome
  have htext := hsome a ha
  rw [Store.arrayText_leads hab hb] at htext
  cases htext

/-- A text found to some depth is the text. -/
theorem text?_of_textWith {text : String} (ht : v.textWith s (s.arrayText n) = some text) :
    v.text? s = some text := by
  have hsome := textWith_isSome.mp (Option.isSome_iff_exists.mpr ⟨text, ht⟩)
  have hend : (v.text? s).isSome := by
    rw [text?_isSome]
    intro b hvb hb
    rw [textWith_circular hvb hb] at ht
    cases ht
  rw [text?, textWith_isSome] at hend
  rw [← ht, text?]
  refine textWith_congr fun a ha => ?_
  have hn := Store.arrayText_le (hsome a ha) (Nat.le_max_left n (s.arrays.size + 1))
  have hsize := Store.arrayText_le (hend a ha) (Nat.le_max_right n (s.arrays.size + 1))
  exact hsize.symm.trans hn

theorem concatText?_isSome : (v.concatText? s).isSome ↔ (v.text? s).isSome := by
  cases v <;> rfl

end Value

/-- A concatenation is without end exactly if the text of an operand is. -/
theorem concat_endless {a b : Value} :
    concat s a b = .error .endless ↔ a.text? s = none ∨ b.text? s = none := by
  rw [← Option.not_isSome_iff_eq_none, ← Option.not_isSome_iff_eq_none, ← Value.concatText?_isSome,
    ← Value.concatText?_isSome, concat]
  cases a.concatText? s <;> cases b.concatText? s <;> simp

theorem concat_ok {a b : Value} :
    (∃ r, concat s a b = .ok r) ↔ (a.text? s).isSome ∧ (b.text? s).isSome := by
  rw [← Value.concatText?_isSome, ← Value.concatText?_isSome, concat]
  cases a.concatText? s <;> cases b.concatText? s <;> simp

/-! ### Types without circles -/

/-- What arrays of the type hold, at any depth, is told by the type: neither `object` nor quoted
trees. -/
def Ty.isDefinite : Ty → Bool
  | .void | .object | .expr => false
  | .array e => e.isDefinite
  | _ => true

section

variable {Γ : Typing} {v : Value} {t : Ty} {a b : Nat} {c : Items}

theorem Value.shows_definite (hv : v.fits t) (ht : t.isDefinite) (h : v.Shows a) :
    ∃ e, t = .array e ∧ v = .array e a := by
  rcases fits_iff.mp hv with rfl | ⟨rfl, -⟩ | hacc
  · cases ht
  · exact h.elim
  · rcases Ty.accepts_iff.mp hacc with rfl | ⟨rfl, -⟩ | ⟨_, _, rfl, hcls, -⟩
    · cases v with
      | array e addr =>
        obtain rfl : addr = a := h
        exact ⟨e, rfl, rfl⟩
      | expr n => cases ht
      | _ => exact h.elim
    · cases ht
    · cases v with
      | array e addr => cases hcls
      | expr n => cases hcls
      | _ => exact h.elim

namespace Store

/-- An array in an array has a smaller type. -/
theorem includes_definite (hs : Γ.StoreOk s) (hc : s.arrays[a]? = some c) (hd : c.elem.isDefinite)
    (h : s.Includes a b) :
    ∃ d, s.arrays[b]? = some d ∧ d.elem.isDefinite ∧ sizeOf d.elem < sizeOf c.elem := by
  obtain ⟨v, hv, hb⟩ := h
  rw [arrayItems, hc] at hv
  have htyped := hs.arrays hc v hv
  obtain ⟨e, he, rfl⟩ := Value.shows_definite htyped.fits hd hb
  obtain ⟨d, hget, rfl⟩ := htyped.backed
  rw [he] at hd ⊢
  refine ⟨d, hget, hd, ?_⟩
  rw [Ty.array.sizeOf_spec]
  omega

theorem leads_definite (hs : Γ.StoreOk s) (hc : s.arrays[a]? = some c) (hd : c.elem.isDefinite)
    (h : Relation.TransGen s.Includes a b) :
    ∃ d, s.arrays[b]? = some d ∧ d.elem.isDefinite ∧ sizeOf d.elem < sizeOf c.elem := by
  induction h with
  | single h => exact includes_definite hs hc hd h
  | tail _ h ih =>
    obtain ⟨m, hm, hmd, hmc⟩ := ih
    obtain ⟨d, hget, hdd, hdm⟩ := includes_definite hs hm hmd h
    exact ⟨d, hget, hdd, hdm.trans hmc⟩

end Store

/-- Values of definite types have a text. -/
theorem Value.text?_definite (hs : Γ.StoreOk s) (hv : Γ.Has s v t) (ht : t.isDefinite) :
    (v.text? s).isSome := by
  have hleads (b : Nat) (h : s.Leads v b) : ∃ c, s.arrays[b]? = some c ∧ c.elem.isDefinite := by
    obtain ⟨a, ha, hab⟩ := h
    obtain ⟨e, rfl, rfl⟩ := Value.shows_definite hv.fits ht ha
    obtain ⟨c, hc, rfl⟩ := hv.backed
    rcases Relation.reflTransGen_iff_eq_or_transGen.mp hab with rfl | hab
    · exact ⟨c, hc, ht⟩
    · obtain ⟨d, hget, hd, -⟩ := Store.leads_definite hs hc ht hab
      exact ⟨d, hget, hd⟩
  rw [text?_isSome]
  intro b hb hcircular
  obtain ⟨c, hc, hd⟩ := hleads b hb
  obtain ⟨d, hget, -, hlt⟩ := Store.leads_definite hs hc hd hcircular
  obtain rfl : c = d := Option.some.inj (hc.symm.trans hget)
  exact absurd hlt (Nat.lt_irrefl _)

end

/-- The text of a value is there unless it goes through an array whose own text goes through it
again, and then there is none at any depth; a text found at some depth is the text. So a plus with a
text has its concatenation unless an operand is such a value, and then it has no end. In a
well-typed store, no value is such a one whose type says what its arrays hold. -/
theorem rendering_ends (s : Store) :
    (∀ v : Value, ((v.text? s).isSome ↔ ∀ b, s.Leads v b → ¬s.Circular b) ∧
      (∀ b n, s.Leads v b → s.Circular b → v.textWith s (s.arrayText n) = none) ∧
      ∀ n text, v.textWith s (s.arrayText n) = some text → v.text? s = some text) ∧
    (∀ a b : Value, a.joins b →
      let sum := NodeKind.applyBinary (.binary (.arith .add)) s a b
      ((∃ r, sum = .ok r) ↔ (a.text? s).isSome ∧ (b.text? s).isSome) ∧
      (sum = .error .endless ↔ a.text? s = none ∨ b.text? s = none)) ∧
    ∀ (Γ : Typing) (v : Value) (t : Ty), Γ.StoreOk s → Γ.Has s v t → t.isDefinite →
      (v.text? s).isSome := by
  refine ⟨fun v => ⟨Value.text?_isSome, fun b n => Value.textWith_circular,
      fun n text => Value.text?_of_textWith⟩,
    fun a b hj => ?_, fun Γ v t => Value.text?_definite⟩
  intro sum
  have hsum : sum = concat s a b := applyBinary_concat hj
  rw [hsum]
  exact ⟨concat_ok, concat_endless⟩

/-- An array that is shown twice and once more in a quoted tree is no circle, and one of integers
never is. -/
theorem shared_array_shown :
    let shared : Value := .array .object 1
    let quoted : Value := .expr (.constant 0 shared (.array .object))
    let numbers : Value := .array (.int .i32) 2
    let s : Store := { arrays := #[⟨.object, #[shared, shared, quoted]⟩, ⟨.object, #[.null]⟩,
      ⟨.int .i32, #[.int .i32 (.wrap .i32 5)]⟩] }
    let v : Value := .array .object 0
    v.text? s = some "[[null], [null], [null]]" ∧
      (∃ r, NodeKind.applyBinary (.binary (.arith .add)) s (.str "x") v = .ok r) ∧
      (numbers.text? s).isSome := by
  intro shared quoted numbers s v
  let Γ : Typing :=
    ⟨fun _ => .object, fun _ => .object, fun _ => ⟨[], .void⟩, fun _ => False, fun _ => True,
    fun _ _ => trivial⟩
  have hs : Γ.StoreOk s := by
    refine ⟨fun {addr c} hc x hx => ?_, fun hf => absurd hf (Array.not_mem_empty _), trivial⟩
    have hshared : Γ.Has s shared .object := ⟨rfl, _, rfl, rfl⟩
    match addr, hc with
    | 0, hc =>
      cases hc
      have hx : x ∈ #[shared, shared, quoted] := hx
      simp only [Array.mem_def, List.mem_cons, List.not_mem_nil, or_false] at hx
      rcases hx with rfl | rfl | rfl
      · exact hshared
      · exact hshared
      · exact ⟨rfl, trivial⟩
    | 1, hc =>
      cases hc
      obtain rfl : x = .null := Array.mem_singleton.mp hx
      exact ⟨rfl, trivial⟩
    | 2, hc =>
      cases hc
      obtain rfl : x = .int .i32 (.wrap .i32 5) := Array.mem_singleton.mp hx
      exact ⟨rfl, trivial⟩
    | n + 3, hc => simp [s] at hc
  have hnumbers : Γ.Has s numbers (.array (.int .i32)) := ⟨rfl, _, rfl, rfl⟩
  obtain ⟨htexts, hsums, htyped⟩ := rendering_ends s
  have htext : v.text? s = some "[[null], [null], [null]]" := (htexts v).2.2 2 _ rfl
  have hsum := (hsums (.str "x") v rfl).1.mpr ⟨rfl, by rw [htext]; rfl⟩
  exact ⟨htext, hsum, htyped Γ numbers _ hs hnumbers rfl⟩

/-! ### A circle made by a run -/

theorem Evaluator.runSequence_value {ev : Evaluator} {all es : List Node} {e : Node} {n : Nat}
    {last v : Value} {s t : State} (h : ev.eval e s = .value v t) :
    ev.runSequence all (n + 1) (e :: es) last s = ev.runSequence all n es v t := by
  rw [runSequence]
  dsimp only
  rw [h]

theorem eval_block_endless {host : Host} {n id : Nat} {p : Param} {ps : List Param}
    {body : List Node} {ty : Ty} {s : State} (hl : s.limit = none)
    (h : (evaluator host n).runSequence body n body .void
      { s with
        env := s.env.push.defineAll ((p :: ps).map fun p => (p.id, .zero p.ty))
        steps := s.steps + 1 } = .endless) :
    eval host (n + 1) (.block id (p :: ps) body ty) s = .endless := by
  have htick : Eval.tick s = .value () { s with steps := s.steps + 1 } := by
    unfold Eval.tick
    rw [hl]
  rw [eval]
  change Eval.bind Eval.tick _ s = _
  rw [Eval.bind, htick]
  change Eval.bind (Eval.around _ _ ((evaluator host n).runSequence body n body .void)) _ _ = _
  rw [Eval.bind, Eval.around]
  dsimp only
  rw [h]

/-- A block makes an array an item of itself, which has no text at any depth then, and there is no
end to its concatenation with a text. -/
theorem array_in_itself_endless :
    let elem : Ty := .object
    let p : Param := ⟨0, none, .array elem⟩
    let a : Node := .param p
    let null : Node := .constant 1 .null elem
    let array : Node := .newArray 2 .items elem [null]
    let made : Node := .binary 3 .assign a array none none (.array elem)
    let zero : Node := .constant 4 (.int .i32 (.wrap .i32 0)) (.int .i32)
    let item : Node := .index 5 a none [zero] elem
    let tied : Node := .binary 6 .assign item a none none elem
    let sum : Node := .binary 8 (.arith .add) (Build.constant 7 (.str "x")) a none none .str
    let block : Node := .block 9 [p] [made, tied, sum] .str
    let host := Scripts.host {}
    let s (v : Value) (steps : Nat) (store : Store) : State :=
      { State.start none store with env := Environment.empty.push.defineAll [(0, v)], steps }
    let u (v : Value) : Store := { arrays := #[⟨elem, #[v]⟩] }
    let v : Value := .array elem 0
    Build.newArray 2 (.newArray .items) elem [null] = .ok array ∧
      Build.binary 3 (.binary .assign) a array none none = .ok made ∧
      Build.index 5 a none [zero] = .ok item ∧
      Build.binary 6 (.binary .assign) item a none none = .ok tied ∧
      Build.binary 8 (.binary (.arith .add)) (Build.constant 7 (.str "x")) a none none = .ok sum ∧
      Build.block 9 [p] [made, tied, sum] none = .ok block ∧
      (∀ k, eval host (k + 3) made (s .null 1 {}) = .value v (s v 4 (u .null))) ∧
      (∀ k, eval host (k + 3) tied (s v 4 (u .null)) = .value v (s v 8 (u v))) ∧
      (∀ n, v.textWith (u v) ((u v).arrayText n) = none) ∧
      ∀ k, (eval host k block).run (State.start none {}) = none := by
  intro elem p a null array made zero item tied sum block host s u v
  have hmade (k : Nat) : eval host (k + 3) made (s .null 1 {}) = .value v (s v 4 (u .null)) := rfl
  have htied (k : Nat) : eval host (k + 3) tied (s v 4 (u .null)) = .value v (s v 8 (u v)) := rfl
  have hsum (k : Nat) : (evaluator host (k + 3)).eval sum (s v 8 (u v)) = .endless := rfl
  have hsequence (k : Nat) :
      (evaluator host (k + 3)).runSequence [made, tied, sum] (k + 3) [made, tied, sum] .void
      (s .null 1 {}) = .endless := by
    rw [Evaluator.runSequence_value (hmade k), Evaluator.runSequence_value (htied k),
      Evaluator.runSequence]
    dsimp only
    rw [hsum]
  have hitself : (u v).Includes 0 0 := ⟨v, by simp [Store.arrayItems, u], rfl⟩
  have htext (n : Nat) : v.textWith (u v) ((u v).arrayText n) = none :=
    Value.textWith_circular ⟨0, rfl, .refl⟩ (.single hitself)
  have hblock (k : Nat) : eval host (k + 4) block (State.start none {}) = .endless :=
    eval_block_endless rfl (hsequence k)
  refine ⟨rfl, rfl, rfl, rfl, rfl, rfl, hmade, htied, htext, fun k => ?_⟩
  rcases k with _ | _ | _ | _ | k
  case succ.succ.succ.succ => rw [Eval.run, hblock]
  all_goals rfl

end ExprTree
