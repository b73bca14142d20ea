import ExprTree.Proofs.Assignments
import ExprTree.Proofs.Factories
import ExprTree.Proofs.PlanEndings

/-! Compound assignments, increments and decrements as plain assignments of what their operators
give. The place of a target is found twice by these, which is no difference where its operands are
parameters and constants. -/
namespace ExprTree

/-- Its evaluation changes nothing, and repeated at once it has the same value. -/
def Node.isPlain : Node → Bool
  | .param _ | .constant .. => true
  | _ => false

variable {α β : Type} {host : Host} {s t u : State} {acts : List Deed}

namespace Plan

/-- Where it has a value, the plan has done nothing. -/
def Still (host : Host) (p : Plan α) : Prop :=
  ∀ ⦃s : State⦄, s.limit = none → ∀ ⦃a t acts⦄, p.Ends host s (.ok a) t acts →
    t = s.uncounted ∧ acts = []

variable {p : Plan α} {f : α → Plan β} {n : Node} {ns : List Node}

theorem still_pure {a : α} : Still host (Pure.pure a) := by
  intro s hl b t acts h
  exact (ends_pure.mp h).2

theorem still_signal {x : Signal} : Still host (.signal x : Plan α) := by
  rintro s hl a t acts ⟨d, u, hu, -⟩
  cases hu

theorem Still.bind (h : Still host p) (hf : ∀ a, Still host (f a)) : Still host (p >>= f) := by
  intro s hl b t acts hb
  rcases (ends_bind hl).mp hb with ⟨x, hx, -⟩ | ⟨a, u, first, rest, hp, hr, rfl⟩
  · cases hx
  · obtain ⟨rfl, rfl⟩ := h hl hp
    exact hf a (hp.limit hl) hr

theorem still_look {next : View → Plan α} (h : ∀ w, Still host (next w)) :
    Still host (.look next) :=
  fun s hl _ _ _ he => h s.view hl (ends_look.mp he)

theorem still_fault {x : Fault} : Still host (fault x : Plan α) := by
  cases x with
  | fatal e => exact still_signal
  | raise c m =>
    intro s hl a t acts h
    have h :
        (Plan.act (.newException c m) .pure >>= fun x => (.signal (.thrown x) : Plan α)).Ends host s
          (.ok a) t acts :=
      h
    rcases (ends_bind hl).mp h with ⟨x, hx, -⟩ | ⟨_, u, _, _, _, ⟨d, u', hu, -⟩, -⟩
    · cases hx
    · cases hu
  | endless =>
    rintro s hl a t acts ⟨d, u, hu, -⟩
    cases hu

theorem still_ofExcept {r : Except Fault α} : Still host (ofExcept r) := by
  cases r with
  | ok a => exact still_pure
  | error x => exact still_fault

theorem still_eval (h : n.isPlain) : Still host (eval n) := by
  intro s hl v t acts he
  have he := (alike_eval hl _ _ _).mp he
  cases n with
  | constant id w _ => exact still_pure hl he
  | param p =>
    refine still_look (fun w => ?_) hl he
    cases w.env.lookup p.id with
    | some v => exact still_pure
    | none => exact still_signal
  | _ => cases h

theorem still_evalAll (h : ∀ n ∈ ns, n.isPlain) : Still host (evalAll ns) := by
  induction ns with
  | nil => exact still_pure
  | cons n ns ih =>
    obtain ⟨hn, hns⟩ := List.forall_mem_cons.mp h
    exact (still_eval hn).bind fun v => (ih hns).bind fun vs => still_pure

theorem still_resolve {vs : List Value} : Still host (resolve n vs) := by
  unfold resolve
  split
  · exact still_pure
  · split
    · exact still_fault
    · exact still_pure
  · exact still_pure
  · split
    · refine Still.bind ?_ fun _ => still_pure
      unfold indexed
      split
      · exact still_fault
      · exact still_pure
    · exact (still_look fun _ => still_ofExcept).bind fun _ => still_pure
    · exact still_signal
  · exact still_signal

/-- To find a place changes nothing if it takes only parameters and constants. -/
theorem still_place (h : ∀ x ∈ n.operands, x.isPlain) : Still host (place n) := by
  rw [place_eq]
  exact (still_evalAll h).bind fun _ => still_resolve

/-! ### The target, evaluated again -/

variable {target right applied : Node} {m : Option Method} {op : Arith} {a : UnaryArith} {j : Nat}
  {ty : Ty} {pl : Place}

/-- Where its place has been found, to evaluate the target is to read the place. -/
theorem eval_target_alike (ht : target.isAssignable) (hplain : ∀ x ∈ target.operands, x.isPlain)
    (hl : s.limit = none) (h : (place target).Ends host s (.ok pl) u acts) :
    Alike host u (eval target) (read pl) := by
  obtain ⟨rfl, rfl⟩ := still_place hplain hl h
  have hplan : Alike host s.uncounted (eval target) (place target >>= read) :=
    target_plan ht ▸ alike_eval hl
  exact hplan.trans (.bind_of_ok hl (h.recounted hl rfl))

theorem eval_binary_alike (hl : u.limit = none) (h : Alike host u (eval target) (read pl)) :
    Alike host u (eval (.binary j (.arith op) target right m none ty))
      (do let a ← read pl; let b ← eval right; applyBinary (.binary (.arith op)) m a b) :=
  (alike_eval hl).trans (.bind hl h fun _ _ _ _ => .refl _)

theorem eval_unary_alike (hl : u.limit = none) (ha : a ≠ .arrayLength)
    (h : Alike host u (eval target) (read pl)) :
    Alike host u (eval (.unary j (.arith a) (some target) m ty))
      (do applyUnary (.unary (.arith a)) m (← read pl)) := by
  have happly (v : Value) :
      applyUnaryOp (.arith a) m ty v = applyUnary (.unary (.arith a)) m v := by
    cases m with
    | some m => rfl
    | none => cases a <;> first | rfl | exact absurd rfl ha
  refine (alike_eval hl).trans ?_
  change Alike host u (eval target >>= applyUnaryOp (.arith a) m ty) _
  rw [funext happly]
  exact .bind hl h fun _ _ _ _ => .refl _

end Plan

/-! ### Expansions -/

section

variable {target right : Node} {m : Option Method} {op : Arith} {a : UnaryArith} {i j k : Nat}
  {ty ty' ty'' : Ty} {pl : Place} {step : UnaryOp}

theorem Plan.produce_compound : produce (.compound op right m none) pl =
    (do let a ← read pl; let b ← eval right; applyBinary (.binary (.arith op)) m a b) >>= fun v =>
      return (v, v) := by
  simp only [produce, bind_assoc]
  cases m <;> rfl

theorem Plan.compound_alike (ht : target.isAssignable) (hplain : ∀ x ∈ target.operands, x.isPlain)
    (hl : s.limit = none) : Alike host s (Node.binary i (.compound op) target right m none ty).plan
      (Node.binary k .assign target (.binary j (.arith op) target right m none ty') none none
        ty'').plan := by
  rw [assignment_plan rfl, assignment_plan rfl]
  refine .bind hl (.refl _) fun pl u acts hpl => .bind (hpl.limit hl) ?_ fun _ _ _ _ => .refl _
  rw [produce_compound]
  have hread := eval_target_alike ht hplain hl hpl
  exact .bind (hpl.limit hl) (eval_binary_alike (hpl.limit hl) hread).symm fun _ _ _ _ => .refl _

/-- What a step makes of a place, with the value of before. -/
def Plan.stepped (a : UnaryArith) (m : Option Method) (pl : Place) : Plan (Value × Value) := do
  let old ← read pl
  (old, ·) <$> do
    let new ← applyUnary (.unary (.arith a)) m old
    store pl (new, new)

theorem Plan.step_plan (hs : step.step? = some a) : (Node.unary i step (some target) m ty).plan =
    (fun v => if step.isPost then v.1 else v.2) <$> (place target >>= stepped a m) := by
  have hnode :
      (Node.unary i step (some target) m ty).assignment? =
        some (target, .step a step.isPost m) := by
    rw [Node.assignment?, hs]
    rfl
  rw [assignment_plan hnode, map_bind]
  simp [produce, store, stepped]

/-- The assignment of an increment or decrement keeps the value of after. -/
theorem Plan.step_alike (hs : step.step? = some a) (ht : target.isAssignable)
    (hplain : ∀ x ∈ target.operands, x.isPlain) (hl : s.limit = none) :
    Alike host s
      (Node.binary k .assign target (.unary j (.arith a) (some target) m ty') none none ty'').plan
      (Prod.snd <$> (place target >>= stepped a m)) := by
  have ha : a ≠ .arrayLength := by
    rintro rfl
    cases step <;> cases hs
  rw [assignment_plan rfl, map_bind]
  refine .bind hl (.refl _) fun pl u acts hpl => ?_
  have hassign : produce (.plain (.unary j (.arith a) (some target) m ty')) pl >>= store pl =
      eval (.unary j (.arith a) (some target) m ty') >>= fun v => store pl (v, v) := by
    simp [produce]
  have hstepped : Prod.snd <$> stepped a m pl =
      (do applyUnary (.unary (.arith a)) m (← read pl)) >>= fun v => store pl (v, v) := by
    simp [stepped, store]
  rw [hassign, hstepped]
  have hread := eval_target_alike ht hplain hl hpl
  exact .bind (hpl.limit hl) (eval_unary_alike (hpl.limit hl) ha hread) fun _ _ _ _ => .refl _

/-- The value of before is the target's. -/
theorem Plan.before_of_stepped (ht : target.isAssignable) (hl : s.limit = none) {old new : Value}
    (h : (place target >>= stepped a m).Ends host s (.ok (old, new)) t acts) :
    ∃ before : Ending, ExprTree.Ends host target s before ∧ before.result = .ok old := by
  rcases (ends_bind hl).mp h with ⟨x, hx, -⟩ | ⟨pl, u, first, rest, hpl, hrest, -⟩
  · cases hx
  have hu := hpl.limit hl
  rcases (ends_bind hu).mp hrest with ⟨x, hx, -⟩ | ⟨v, w, reads, writes, hread, hwrite, -⟩
  · cases hx
  obtain ⟨q, -, hq⟩ := (ends_map (hread.limit hu)).mp hwrite
  obtain rfl : old = v := by
    cases q with
    | error x => cases hq
    | ok q => exact congrArg Prod.fst (Except.ok.inj hq)
  have htarget : (place target >>= read).Ends host s (.ok old) w (first ++ reads) :=
    (ends_bind hl).mpr (.inr ⟨pl, u, first, reads, hpl, hread, rfl⟩)
  rw [← target_plan ht] at htarget
  exact ⟨_, (ends_iff_plan hl).mpr htarget, rfl⟩

theorem ends_step {e : Ending} (hs : step.step? = some a) (hl : s.limit = none) :
    Ends host (.unary i step (some target) m ty) s e ↔
      ∃ q, (Plan.place target >>= Plan.stepped a m).Ends host s q e.state e.acts ∧
        e.result = q.map fun v => if step.isPost then v.1 else v.2 := by
  refine (ends_iff_plan hl).trans ?_
  rw [Plan.step_plan hs, Plan.ends_map hl]

theorem ends_expanded {e : Ending} (hs : step.step? = some a) (ht : target.isAssignable)
    (hplain : ∀ x ∈ target.operands, x.isPlain) (hl : s.limit = none) :
    Ends host
      (.binary k .assign target (.unary j (.arith a) (some target) m ty') none none ty'') s e ↔
      ∃ q, (Plan.place target >>= Plan.stepped a m).Ends host s q e.state e.acts ∧
        e.result = q.map Prod.snd :=
  (ends_iff_plan hl).trans ((Plan.step_alike hs ht hplain hl _ _ _).trans (Plan.ends_map hl))

end

/-- A compound assignment is the assignment of what its operator gives for the target and the right
operand, if the target takes only parameters and constants to find. In every state without a limit
the two come to the same end or to none: with the same result, after the same uses of handles and
assignments, in the same state. The same goes for the increments and decrements; those whose value
is the one of before end as the assignment does in all else, and with the value that the target has
where they start. -/
theorem compound_as_assignment (host : Host) {target : Node}
    (htarget : ∀ x ∈ target.operands, x.isPlain) (m : Option Method) (i j k : Nat) :
    (∀ (op : Arith) (right compound applied expansion : Node),
      Build.binary i (.binary (.compound op)) target right m none = .ok compound →
      Build.binary j (.binary (.arith op)) target right m none = .ok applied →
      Build.binary k (.binary .assign) target applied none none = .ok expansion →
      ∀ s : State, s.limit = none → ∀ e, Ends host compound s e ↔ Ends host expansion s e) ∧
    ∀ (op : UnaryOp) (a : UnaryArith) (step applied expansion : Node), op.step? = some a →
      Build.unary i (.unary op) (some target) none m = .ok step →
      Build.unary j (.unary (.arith a)) (some target) none m = .ok applied →
      Build.binary k (.binary .assign) target applied none none = .ok expansion →
      ∀ s : State, s.limit = none → ∀ e, Ends host step s e ↔
        if op.isPost then
          (∃ x, e.result = .error x ∧ Ends host expansion s e) ∨
            ∃ (before : Ending) (old new : Value), Ends host target s before ∧
            before.result = .ok old ∧
              e.result = .ok old ∧ Ends host expansion s { e with result := .ok new }
        else Ends host expansion s e := by
  refine ⟨fun op right compound applied expansion hcompound happlied hexpansion s hl e => ?_,
    fun op a step applied expansion hs hstep happlied hexpansion s hl e => ?_⟩
  · obtain ⟨ty, rfl, hty⟩ := Build.binary_shape hcompound
    obtain ⟨_, rfl, -⟩ := Build.binary_shape happlied
    obtain ⟨_, rfl, -⟩ := Build.binary_shape hexpansion
    have ht := (Build.compoundType_ok hty).1
    exact (ends_iff_plan hl).trans
      ((Plan.compound_alike ht htarget hl _ _ _).trans (ends_iff_plan hl).symm)
  · have hne : op ≠ .throw := by
      rintro rfl
      cases hs
    obtain ⟨ty, rfl, hty⟩ := Build.unary_shape hne hstep
    have ha : UnaryOp.arith a ≠ .throw := nofun
    obtain ⟨_, rfl, -⟩ := Build.unary_shape ha happlied
    obtain ⟨_, rfl, -⟩ := Build.binary_shape hexpansion
    have ht := (Build.stepType_ok (hs ▸ rfl) hty).1
    rw [ends_step hs hl]
    cases hpost : op.isPost with
    | false => exact (ends_expanded hs ht htarget hl).symm
    | true =>
      constructor
      · rintro ⟨x | ⟨old, new⟩, hq, hr⟩
        · exact .inl ⟨x, hr, (ends_expanded hs ht htarget hl).mpr ⟨_, hq, hr⟩⟩
        · obtain ⟨before, hbefore, hold⟩ := Plan.before_of_stepped ht hl hq
          exact .inr ⟨before, old, new, hbefore, hold, hr,
            (ends_expanded hs ht htarget hl).mpr ⟨_, hq, rfl⟩⟩
      · rintro (⟨x, hx, he⟩ | ⟨before, old, new, hbefore, hold, hr, he⟩)
        · obtain ⟨q | q, hq, hr⟩ := (ends_expanded hs ht htarget hl).mp he
          · exact ⟨_, hq, hr⟩
          · cases hx.symm.trans hr
        · obtain ⟨q | ⟨old', new'⟩, hq, hnew⟩ := (ends_expanded hs ht htarget hl).mp he
          · cases hnew
          · obtain ⟨before', hbefore', hold'⟩ := Plan.before_of_stepped ht hl hq
            obtain rfl := hbefore.unique hbefore'
            obtain rfl := Except.ok.inj (hold.symm.trans hold')
            exact ⟨_, hq, hr⟩

/-- The right operand sets the index of the target, and the element is still the one that was read.
A step after that has the value of before. -/
theorem index_set_on_the_right :
    let host := Scripts.host {}
    let xs : Param := ⟨0, none, .array (.int .i32)⟩
    let i : Param := ⟨1, none, .int .i32⟩
    let number (n : Int) : Value := .int .i32 (Word.wrap .i32 n)
    let target : Node := .index 0 (.param xs) none [.param i] (.int .i32)
    let right : Node :=
      .binary 1 .assign (.param i) (.constant 2 (number 1) (.int .i32)) none none (.int .i32)
    let sum : Node := .binary 3 (.arith .add) target right none none (.int .i32)
    let next : Node := .unary 3 (.arith .increment) (some target) none (.int .i32)
    let s (n : Int) (first : Int) : State :=
      { State.start none { arrays := #[⟨.int .i32, #[number first, number 20]⟩] } with
        env := .ofCaptures [(0, .array (.int .i32) 0), (1, number n)] }
    Ends host (.binary 5 .assign target sum none none (.int .i32)) (s 0 10)
        ⟨.ok (number 11), s 1 11, [.assign (number 1), .element 0 0 (number 11)]⟩ ∧
      Ends host (.binary 5 .assign target next none none (.int .i32)) (s 0 11)
        ⟨.ok (number 12), s 0 12, [.element 0 0 (number 12)]⟩ ∧
      Ends host (.unary 6 .postIncrement (some target) none (.int .i32)) (s 0 11)
        ⟨.ok (number 11), s 0 12, [.element 0 0 (number 12)]⟩ := by
  intro host xs i number target right sum next s
  have htarget : ∀ x ∈ target.operands, x.isPlain := by decide
  obtain ⟨hcompound, hstep⟩ := compound_as_assignment host htarget none 6 3 5
  have hsum : Ends host (.binary 6 (.compound .add) target right none none (.int .i32)) (s 0 10)
      ⟨.ok (number 11), s 1 11, [.assign (number 1), .element 0 0 (number 11)]⟩ := ⟨3, rfl⟩
  have hpre : Ends host (.unary 6 .preIncrement (some target) none (.int .i32)) (s 0 11)
      ⟨.ok (number 12), s 0 12, [.element 0 0 (number 12)]⟩ := ⟨3, rfl⟩
  have hbefore : Ends host target (s 0 11) ⟨.ok (number 11), s 0 11, []⟩ := ⟨2, rfl⟩
  have hnext := (hstep .preIncrement .increment _ next _ rfl rfl rfl rfl _ rfl _).mp hpre
  exact ⟨(hcompound .add right _ sum _ rfl rfl rfl _ rfl _).mp hsum, hnext,
    (hstep .postIncrement .increment _ next _ rfl rfl rfl rfl _ rfl _).mpr
      (.inr ⟨_, _, _, hbefore, rfl, rfl, hnext⟩)⟩

end ExprTree
