import ExprTree.Proofs.Factories
import ExprTree.Proofs.PlanEndings

/-! A switch without a comparer and the conditionals that try its tests one after another. Both come
down to one plan, which goes through the tests of all cases in order. -/
namespace ExprTree

/-- Each test, with the body that it selects, in the order in which they are tried. -/
def SwitchCase.arms (cases : List SwitchCase) : List (Node × Node) :=
  cases.flatMap fun c => c.tests.map (·, c.body)

/-- How the tests of a value end: in the signal of a test, with the body of the first test that the
operator `==` finds equal to the value, or with what there is for no test. -/
inductive Picks (host : Host) (v : Value) (fallback : Option Node) (ty : Ty) :
    List (Node × Node) → State → Ending → Prop where
  | fails {t b : Node} {arms : List (Node × Node)} {s : State} {e : Ending} {x : Signal}
    (h : Ends host t s e)
    (hx : e.result = .error x) : Picks host v fallback ty ((t, b) :: arms) s e
  | hit {t b : Node} {arms : List (Node × Node)} {s : State} {e f : Ending} {w : Value}
    (h : Ends host t s e)
    (hw : e.result = .ok w)
    (heq : NodeKind.applyBinary (.binary (.compare .equal)) e.state.store v w = .ok (.bool true))
    (hb : Ends host b e.state f) :
    Picks host v fallback ty ((t, b) :: arms) s ((f.map ty.result).after e.acts)
  | miss {t b : Node} {arms : List (Node × Node)} {s : State} {e f : Ending} {w : Value}
    (h : Ends host t s e)
    (hw : e.result = .ok w)
    (hne : NodeKind.applyBinary (.binary (.compare .equal)) e.state.store v w = .ok (.bool false))
    (hf : Picks host v fallback ty arms e.state f) :
    Picks host v fallback ty ((t, b) :: arms) s (f.after e.acts)
  | fallback {b : Node} {s : State} {e : Ending} (hb : fallback = some b) (h : Ends host b s e) :
    Picks host v fallback ty [] s (e.map ty.result)
  | none {s : State} (hb : fallback = none) :
    Picks host v fallback ty [] s ⟨.ok (.zero ty), s.uncounted, []⟩

namespace Build

/-- Whether one of the nodes is equal to the value; no more of them are evaluated than it takes to
tell. -/
def anyEqual (id : Nat) (v : Value) : List Node → Result Node
  | [] => .ok (constant id (.bool false))
  | [t] => binary id (.binary (.compare .equal)) (constant (id + 1) v) t none none
  | t :: ts => do
    let first ← binary id (.binary (.compare .equal)) (constant (id + 1) v) t none none
    binary (id + 2) (.binary .orElse) first (← anyEqual (id + 3) v ts) none none

/-- The conditionals of a switch on a value: one for each case, and then the default body or,
without one, the zero of the type. -/
def caseChain (v : Value) (ty : Ty) (fallback : Option Node) (id : Nat) :
    List SwitchCase → Result Node
  | [] => .ok (fallback.getD (.default id ty))
  | c :: cs => do
    let test ← anyEqual (id + 1) v c.tests
    conditional id test c.body (← caseChain v ty fallback (id + 1 + 3 * c.tests.length) cs)
      (some ty)

theorem orElse_ok {id : Nat} {l r : Node} (hl : l.ty = .bool) (hr : r.ty = .bool) :
    binary id (.binary .orElse) l r none none = .ok (.binary id .orElse l r none none .bool) := by
  simp only [binary, binaryType, hl, hr]
  rfl

end Build

theorem Ty.result_result {ty : Ty} {v : Value} : ty.result (ty.result v) = ty.result v := by
  unfold result
  split <;> rfl

theorem Ty.result_zero {ty : Ty} : ty.result (.zero ty) = .zero ty := by
  cases ty <;> rfl

namespace Plan

variable {v : Value} {fallback : Option Node} {ty : Ty} {ts : List Node} {cs : List SwitchCase}
  {b : Node} {arms : List (Node × Node)}

/-! ### Tests in order -/

/-- Goes through the tests of a switch on the value. -/
def pick (v : Value) (fallback : Option Node) (ty : Ty) : List (Node × Node) → Plan Value
  | [] => match fallback with
    | some b => ty.result <$> eval b
    | none => return .zero ty
  | (t, b) :: arms => do
    let w ← eval t
    if v.valuesEqual w then ty.result <$> eval b else pick v fallback ty arms

/-- A case is left out when none of its tests matches. -/
theorem pick_tests : pick v fallback ty (ts.map (·, b) ++ arms) =
    anyMatches none v ts >>= fun m => if m then ty.result <$> eval b else
      pick v fallback ty arms := by
  induction ts with
  | nil => rfl
  | cons t ts ih =>
    rw [List.map_cons, List.cons_append, pick, anyMatches, bind_assoc]
    refine congrArg _ (funext fun w => ?_)
    rw [ih, matchesCase, pure_bind]
    cases v.valuesEqual w <;> rfl

theorem evalSwitch_eq {value : Node} : evalSwitch value cs fallback none ty =
    eval value >>= fun v => pick v fallback ty (SwitchCase.arms cs) := by
  refine congrArg _ (funext fun v => ?_)
  induction cs with
  | nil => cases fallback <;> rfl
  | cons c cs ih =>
    rw [SwitchCase.arms, List.flatMap_cons, pick_tests, selectCase, bind_assoc]
    refine congrArg _ (funext fun m => ?_)
    cases m with
    | true => rfl
    | false => exact ih

end Plan

variable {host : Host} {v : Value} {fallback : Option Node} {ty : Ty} {arms : List (Node × Node)}
  {s : State} {e : Ending}

theorem ends_branch {b : Node} (hl : s.limit = none) :
    (ty.result <$> Plan.eval b).Ends host s e.result e.state e.acts ↔ ∃ f, Ends host b s f ∧
      e = f.map ty.result := by
  rw [Plan.ends_map hl]
  constructor
  · rintro ⟨q, h, hr⟩
    refine ⟨⟨q, e.state, e.acts⟩, ends_eval.mp h, ?_⟩
    rw [Ending.map, ← hr]
  · rintro ⟨f, h, rfl⟩
    exact ⟨f.result, ends_eval.mpr h, rfl⟩

/-- The plan ends as the tests of the value do. -/
theorem picks_iff (hl : s.limit = none) :
    (Plan.pick v fallback ty arms).Ends host s e.result e.state e.acts ↔
      Picks host v fallback ty arms s e := by
  induction arms generalizing s e with
  | nil =>
    cases fallback with
    | none =>
      constructor
      · intro h
        obtain ⟨hr, hs, ha⟩ := Plan.ends_pure.mp h
        have he : e = ⟨.ok (.zero ty), s.uncounted, []⟩ := by rw [← hr, ← hs, ← ha]
        exact he ▸ .none rfl
      · rintro (_ | _ | _ | ⟨⟨⟩, -⟩ | -)
        exact Plan.ends_pure.mpr ⟨rfl, rfl, rfl⟩
    | some b =>
      refine (ends_branch hl).trans ⟨?_, ?_⟩
      · rintro ⟨f, h, rfl⟩
        exact .fallback rfl h
      · rintro (_ | _ | _ | ⟨⟨⟩, h⟩ | ⟨⟨⟩⟩)
        exact ⟨_, h, rfl⟩
  | cons arm arms ih =>
    obtain ⟨t, b⟩ := arm
    refine (ends_eval_bind hl).trans ⟨?_, ?_⟩
    · rintro (⟨x, hx, h⟩ | ⟨f, w, g, h, hw, hg, rfl⟩)
      · exact .fails h hx
      · have hu : f.state.limit = none := h.state_limit hl
        cases heq : v.valuesEqual w with
        | true =>
          rw [heq] at hg
          obtain ⟨g, hb, rfl⟩ := (ends_branch hu).mp hg
          exact .hit h hw (congrArg _ (congrArg _ heq)) hb
        | false =>
          rw [heq] at hg
          exact .miss h hw (congrArg _ (congrArg _ heq)) ((ih hu).mp hg)
    · rintro (⟨h, hx⟩ | ⟨h, hw, heq, hb⟩ | ⟨h, hw, hne, hf⟩ | _)
      · exact .inl ⟨_, hx, h⟩
      · refine .inr ⟨_, _, _, h, hw, ?_, rfl⟩
        rw [Value.bool.inj (Except.ok.inj heq)]
        exact (ends_branch (h.state_limit hl)).mpr ⟨_, hb, rfl⟩
      · refine .inr ⟨_, _, _, h, hw, ?_, rfl⟩
        rw [Value.bool.inj (Except.ok.inj hne)]
        exact (ih (h.state_limit hl)).mpr hf

/-! ### Conditionals in a row -/

namespace Plan

variable {l r t n : Node} {id j : Nat} {u : Ty} {cs : List SwitchCase}

def truth (v : Value) : Plan Bool :=
  match v.bool? with
  | some b => return b
  | none => fault (.typeMismatch "bool" v.sortName)

theorem evalBool_alike (hl : s.limit = none) : Alike host s (evalBool n) (n.plan >>= truth) :=
  .bind hl (alike_eval hl) fun _ _ _ _ => .refl _

/-- A comparison with a constant evaluates the other operand. -/
theorem evalBool_equal (hl : s.limit = none) :
    Alike host s (evalBool (.binary id (.compare .equal) (.constant j v u) t none none .bool))
      (do return v.valuesEqual (← eval t)) := by
  have hconstant : (eval (.constant j v u)).Ends host s (.ok v) s.uncounted [] :=
    (alike_eval hl _ _ _).mpr (ends_pure.mpr ⟨rfl, rfl, rfl⟩)
  refine (evalBool_alike hl).trans ((Alike.bind_of_ok hl hconstant).trans ?_)
  change Alike host s (eval t >>= fun w =>
    applyBinary (.binary (.compare .equal)) none v w >>= truth) _
  exact .bind hl (.refl _) fun w _ _ _ => fun _ _ _ => Iff.rfl

theorem evalBool_orElse (hl : s.limit = none) :
    Alike host s (evalBool (.binary id .orElse l r none none .bool))
    (do if ← evalBool l then return true else evalBool r) := by
  refine (evalBool_alike hl).trans ?_
  have heq : (Node.binary id .orElse l r none none .bool).plan >>= truth =
      (do if ← evalBool l then return true else evalBool r) := by
    change (evalBool l >>= fun b => if b then _ else _) >>= truth = _
    rw [bind_assoc]
    refine congrArg _ (funext fun b => ?_)
    cases b with
    | true => rfl
    | false => exact (bind_assoc ..).trans (bind_pure _)
  exact heq ▸ .refl _

/-- The disjunction of comparisons tells whether one of the tests matches. -/
theorem anyEqual_alike (host : Host) (id : Nat) (v : Value) (ts : List Node) :
    ∃ test, Build.anyEqual id v ts = .ok test ∧
    test.ty = .bool ∧ ∀ s : State, s.limit = none →
      Alike host s (evalBool test) (anyMatches none v ts) := by
  induction id, ts using Build.anyEqual.induct with
  | case1 id => exact ⟨_, rfl, rfl, fun s hl => (evalBool_alike hl).trans (.refl _)⟩
  | case2 id t =>
    refine ⟨_, rfl, rfl,
      fun s hl => (evalBool_equal hl).trans (.bind hl (.refl _) fun w _ _ _ => ?_)⟩
    change Alike host _ (Pure.pure (v.valuesEqual w)) (if v.valuesEqual w then Pure.pure true else
      Pure.pure false)
    cases v.valuesEqual w <;> exact .refl _
  | case3 id t ts hne ih =>
    obtain ⟨rest, hrest, hty, ih⟩ := ih
    have hbuilt : Build.anyEqual id v (t :: ts) = .ok (.binary (id + 2) .orElse
        (.binary id (.compare .equal) (Build.constant (id + 1) v) t none none .bool) rest none none
          .bool) := by
      rw [Build.anyEqual, hrest]
      · exact Build.orElse_ok rfl hty
      · exact hne
    refine ⟨_, hbuilt, rfl, fun s hl => (evalBool_orElse hl).trans ?_⟩
    refine (Alike.bind hl (evalBool_equal hl) fun _ _ _ _ => .refl _).trans ?_
    change Alike host s (eval t >>= fun w => if v.valuesEqual w then Pure.pure true else
      evalBool rest) _
    refine .bind hl (.refl _) fun w u acts hu => ?_
    change Alike host _ _ (if v.valuesEqual w then Pure.pure true else anyMatches none v ts)
    cases v.valuesEqual w with
    | true => exact .refl _
    | false => exact ih u (hu.limit hl)

theorem result_map {q : Plan Value} : ty.result <$> ty.result <$> q = ty.result <$> q := by
  simp [Ty.result_result]

theorem conditional_plan : (Node.conditional id t l r ty).plan =
    evalBool t >>= fun m => if m then ty.result <$> eval l else ty.result <$> eval r := by
  rw [Node.plan, evalConditional]
  refine congrArg _ (funext fun m => ?_)
  cases m <;> exact bind_pure_comp ..

/-- The conditionals can be built, and end as the tests of all cases do, but for the value that a
lone default body of a switch of type void has. -/
theorem caseChain_alike (host : Host) (id : Nat) (v : Value)
    (hc : ∀ c ∈ cs, Build.FitsBranch ty c.body) (hf : ∀ b ∈ fallback, Build.FitsBranch ty b) :
    ∃ chain, Build.caseChain v ty fallback id cs = .ok chain ∧
      Build.FitsBranch ty chain ∧ (cs ≠ [] → ty.result <$> chain.plan = chain.plan) ∧
      ∀ s : State, s.limit = none →
        Alike host s (ty.result <$> eval chain) (pick v fallback ty (SwitchCase.arms cs)) := by
  induction cs generalizing id with
  | nil =>
    cases fallback with
    | none =>
      refine ⟨_, rfl, .inr (.inr (Ty.accepts_self _)), nofun, fun s hl => ?_⟩
      refine (Alike.map hl (alike_eval hl)).trans ?_
      change Alike host s (Pure.pure (ty.result (.zero ty))) (Pure.pure (.zero ty))
      rw [Ty.result_zero]
      exact .refl _
    | some b => exact ⟨b, rfl, hf b rfl, nofun, fun s hl => .refl _⟩
  | cons c cs ih =>
    obtain ⟨hc, hcs⟩ := List.forall_mem_cons.mp hc
    obtain ⟨test, htest, hty, halike⟩ := anyEqual_alike host (id + 1) v c.tests
    obtain ⟨rest, hrest, hfits, -, ih⟩ := ih (id + 1 + 3 * c.tests.length) hcs
    have hbuilt :
        Build.caseChain v ty fallback id (c :: cs) = .ok (.conditional id test c.body rest ty) := by
      rw [Build.caseChain, htest, hrest]
      change Build.conditional id test c.body rest (some ty) = _
      simp [Build.conditional, hty, hc, hfits]
    have hresult : ty.result <$> (Node.conditional id test c.body rest ty).plan =
        (Node.conditional id test c.body rest ty).plan := by
      rw [conditional_plan, map_bind]
      refine congrArg _ (funext fun m => ?_)
      cases m <;> exact result_map
    refine ⟨_, hbuilt, .inr (.inr (Ty.accepts_self _)), fun _ => hresult, fun s hl => ?_⟩
    refine (Alike.map hl (alike_eval hl)).trans ?_
    rw [hresult, conditional_plan, SwitchCase.arms, List.flatMap_cons, pick_tests]
    refine .bind hl (halike s hl) fun m u acts hu => ?_
    cases m with
    | true => exact .refl _
    | false => exact ih u (hu.limit hl)

end Plan

/-! ### Switches as conditionals -/

theorem Build.switch_fits {id : Nat} {switch value : Node} {cases : List SwitchCase}
    {k : Option Method} {u : Option Ty}
    (h : Build.switch id value cases fallback k u = .ok switch) :
    ∃ ty, switch = .switch id value cases fallback k ty ∧ (∀ c ∈ cases, FitsBranch ty c.body) ∧
      ∀ b ∈ fallback, FitsBranch ty b := by
  cases k <;> cases fallback
  all_goals
    simp only [Build.switch, bind_ok, List.forM_eq_forM, forM_ok, checkBranch_ok, exists_const,
      pure_ok] at h
    obtain ⟨_, _, _, _, hc, hf, rfl⟩ := h
    exact ⟨_, rfl, hc, by simp_all⟩

/-- A switch without a comparer evaluates its value and then is the conditionals of its cases, which
can be built for every value. In every state without a limit the two come to the same end or to
none: with the same result, after the same uses of handles and assignments, in the same state. The
end is that of the tests in order. -/
theorem switch_as_conditionals {id : Nat} {switch value : Node} {cases : List SwitchCase}
    {fallback : Option Node} {ty : Option Ty}
    (hswitch : Build.switch id value cases fallback none ty = .ok switch) (hcases : cases ≠ [])
    (host : Host) (next : Nat) :
    ∃ chain : Value → Node, (∀ v, Build.caseChain v switch.ty fallback next cases = .ok (chain v)) ∧
      ∀ s : State, s.limit = none → ∀ e,
        (Ends host switch s e ↔ (∃ x, e.result = .error x ∧ Ends host value s e) ∨
          ∃ (first : Ending) (v : Value) (rest : Ending), Ends host value s first ∧
          first.result = .ok v ∧
            Ends host (chain v) first.state rest ∧ e = rest.after first.acts) ∧
        ∀ v, Ends host (chain v) s e ↔
          Picks host v fallback switch.ty (SwitchCase.arms cases) s e := by
  obtain ⟨ty, rfl, hc, hf⟩ := Build.switch_fits hswitch
  choose chain hchain _ hresult halike using fun v => Plan.caseChain_alike host next v hc hf
  have hends {s : State} (hl : s.limit = none) (v : Value) (e : Ending) :
      (Plan.pick v fallback ty (SwitchCase.arms cases)).Ends host s e.result e.state e.acts ↔
        Ends host (chain v) s e := by
    have hplan : Plan.Alike host s (Plan.eval (chain v)) (chain v).plan := alike_eval hl
    have heq : Plan.Alike host s (ty.result <$> Plan.eval (chain v)) (chain v).plan :=
      hresult v hcases ▸ hplan.map hl
    exact ((halike v s hl).symm.trans (heq.trans hplan.symm) _ _ _).trans ends_eval
  refine ⟨chain, hchain, fun s hl e => ⟨?_, fun v => (hends hl v e).symm.trans (picks_iff hl)⟩⟩
  refine (ends_iff_plan hl).trans ?_
  rw [Node.plan, Plan.evalSwitch_eq, ends_eval_bind hl]
  refine or_congr Iff.rfl (exists_congr fun first => exists_congr fun v =>
    exists_congr fun rest => ?_)
  exact and_congr_right fun h => and_congr_right fun _ => and_congr_left fun _ =>
    hends (h.state_limit hl) v rest

/-- The second test is equal to the value, though of another kind. The third one, which would set
the parameter, is not evaluated. -/
theorem second_test_selects :
    let host := Scripts.host {}
    let p : Param := ⟨0, none, .object⟩
    let number (id : Nat) (k : IntKind) (n : Int) : Node :=
      .constant id (.int k (Word.wrap k n)) (.int k)
    let cases : List SwitchCase :=
      [.mk 1 [number 2 .u8 1, number 3 .i64 2,
        .binary 4 .assign (.param p) (number 5 .i8 3) none none .object]
          (.constant 6 (.str "two") .str),
        .mk 7 [number 8 .i32 2] (.constant 9 (.str "again") .str)]
    let s : State :=
      { State.start none {} with env := .ofCaptures [(0, .int .i32 (Word.wrap .i32 2))] }
    ∃ switch, Build.switch 0 (.param p) cases none none none = .ok switch ∧
      Ends host switch s ⟨.ok (.str "two"), s, []⟩ := by
  intro host p number cases s
  have hswitch : Build.switch 0 (.param p) cases none none none =
      .ok (.switch 0 (.param p) cases none none .str) := rfl
  obtain ⟨chain, -, hends⟩ := switch_as_conditionals hswitch nofun host 10
  have hvalue : Ends host (.param p) s ⟨.ok (.int .i32 (Word.wrap .i32 2)), s, []⟩ := ⟨1, rfl⟩
  have hnumber (id : Nat) (k : IntKind) (n : Int) :
      Ends host (number id k n) s ⟨.ok (.int k (Word.wrap k n)), s, []⟩ :=
    ⟨1, rfl⟩
  have hbody : Ends host (.constant 6 (.str "two") .str) s ⟨.ok (.str "two"), s, []⟩ := ⟨1, rfl⟩
  have hchain : Ends host (chain (.int .i32 (Word.wrap .i32 2))) s ⟨.ok (.str "two"), s, []⟩ :=
    ((hends s rfl _).2 _).mpr
      (.miss (hnumber ..) rfl (by cbv) (.hit (hnumber ..) rfl (by cbv) hbody))
  exact ⟨_, hswitch, (hends s rfl _).1.mpr (.inr ⟨_, _, _, hvalue, rfl, hchain, rfl⟩)⟩

end ExprTree
