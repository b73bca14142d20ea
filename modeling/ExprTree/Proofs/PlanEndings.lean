import ExprTree.Proofs.Endings

/-! How plans end when nothing limits them: as their first part does, or as what comes after it.
Plans that end alike from a state may stand for each other there. -/
namespace ExprTree

variable {α β : Type} {host : Host} {s t u v : State} {acts : List Deed}

namespace Plan

/-- Given the depth for it, the plan ends so; the interpreter's own steps are not counted. -/
def Ends (host : Host) (p : Plan α) (s : State) (r : Except Signal α) (t : State)
    (acts : List Deed) : Prop :=
  ∃ d u, p.run (evaluator host d) s = .ended r u ∧ u.uncounted = t ∧
    Trace.acts (p.trace (recorder host d) s) = acts

/-- Whatever the one plan ends in the other does, after the same acts. -/
def Alike (host : Host) (s : State) (p q : Plan α) : Prop :=
  ∀ r t acts, p.Ends host s r t acts ↔ q.Ends host s r t acts

variable {p q : Plan α} {f g : α → Plan β} {r : Except Signal α} {d n m : Nat}

/-! ### Depth and count -/

theorem run_mono (h : n ≤ m) (he : p.run (evaluator host n) s = .ended r t) :
    p.run (evaluator host m) s = .ended r t ∧
      p.trace (recorder host m) s = p.trace (recorder host n) s := by
  have hrun : p.run (evaluator host n) s ≠ .endless :=
    fun h => Outcome.ended_ne_endless (he.symm.trans h)
  obtain ⟨heq, htr⟩ := (Recorder.plan_follows (leads Host.blind_exact h) (p := p) (.refl s)).eq hrun
  exact ⟨heq.trans he, htr⟩

theorem run_recounted (hl : s.limit = none) (hv : v.uncounted = s.uncounted)
    (he : p.run (evaluator host n) s = .ended r t) :
    ∃ u, p.run (evaluator host n) v = .ended r u ∧ u.uncounted = t.uncounted ∧
      Trace.acts (p.trace (recorder host n) v) = Trace.acts (p.trace (recorder host n) s) := by
  have hR : Recorder.Coupled Coupling.recounted (recorder host n) (recorder host n) :=
    recounted_recorder
  have hruns := Recorder.plan_coupled Coupling.recounted_lawful hR (i := ()) rfl p.linked_same
    (recounted_states hl hv)
  obtain ⟨ha, ⟨ho, -⟩ | ⟨r', t', u, ho, hu, ht⟩⟩ := hruns.ended
  · exact absurd (he.symm.trans ho) Outcome.ended_ne_endless
  · obtain ⟨rfl, rfl⟩ := Outcome.ended_inj.mp (he.symm.trans ho)
    exact ⟨u, hu, ht, ha⟩

theorem limit_of_run (hl : s.limit = none)
    (h : p.run (evaluator host n) s = .ended r t) : t.limit = none := by
  have hi : StoreInvariant host (fun _ => True) fun _ => True :=
    ⟨fun _ _ _ => trivial, fun _ _ => trivial, fun _ _ => .inl trivial,
      Host.keeps_of_all (fun _ => trivial) fun _ => trivial⟩
  have hleaves := hi.plan_advances (hi.advances n) (p := p) (s := s) trivial trivial
  rw [h] at hleaves
  cases r with
  | ok a => exact hleaves.limit.trans hl
  | error x => exact hleaves.limit.trans hl

namespace Ends

theorem of_run (h : p.run (evaluator host n) s = .ended r t) :
    p.Ends host s r t.uncounted (Trace.acts (p.trace (recorder host n) s)) :=
  ⟨n, t, h, rfl, rfl⟩

/-- From some depth on the plan ends so, whatever the count of steps. -/
theorem eventually (hl : s.limit = none) (h : p.Ends host s r t acts) :
    ∃ d, ∀ m ≥ d, ∀ v : State, v.uncounted = s.uncounted →
      ∃ u, p.run (evaluator host m) v = .ended r u ∧
      u.uncounted = t ∧ Trace.acts (p.trace (recorder host m) v) = acts := by
  obtain ⟨d, w, he, rfl, rfl⟩ := h
  refine ⟨d, fun m hm v hv => ?_⟩
  obtain ⟨hrun, htr⟩ := run_mono hm he
  rw [← htr]
  exact run_recounted hl hv hrun

theorem recounted (hl : s.limit = none) (hv : v.uncounted = s.uncounted)
    (h : p.Ends host s r t acts) : p.Ends host v r t acts := by
  obtain ⟨d, hd⟩ := h.eventually hl
  obtain ⟨u, hu, ht, ha⟩ := hd d (Nat.le_refl d) v hv
  exact ⟨d, u, hu, ht, ha⟩

theorem limit (hl : s.limit = none) (h : p.Ends host s r t acts) : t.limit = none := by
  obtain ⟨d, u, hu, rfl, -⟩ := h
  exact show u.limit = none from limit_of_run hl hu

theorem uncounted (h : p.Ends host s r t acts) : t.uncounted = t := by
  obtain ⟨d, u, -, rfl, -⟩ := h
  rfl

theorem unique {r' : Except Signal α} {t' : State} {acts' : List Deed} (hl : s.limit = none)
    (h : p.Ends host s r t acts) (h' : p.Ends host s r' t' acts') :
    r' = r ∧ t' = t ∧ acts' = acts := by
  obtain ⟨d, hd⟩ := h.eventually hl
  obtain ⟨d', hd'⟩ := h'.eventually hl
  obtain ⟨u, hu, rfl, rfl⟩ := hd (max d d') (Nat.le_max_left d d') s rfl
  obtain ⟨u', hu', rfl, rfl⟩ := hd' (max d d') (Nat.le_max_right d d') s rfl
  obtain ⟨rfl, rfl⟩ := Outcome.ended_inj.mp (hu'.symm.trans hu)
  exact ⟨rfl, rfl, rfl⟩

end Ends

/-! ### Plans in a row -/

@[simp] theorem ends_pure {a : α} : (Pure.pure a : Plan α).Ends host s r t acts ↔
    r = .ok a ∧ t = s.uncounted ∧ acts = [] := by
  constructor
  · rintro ⟨d, u, hu, rfl, rfl⟩
    obtain ⟨rfl, rfl⟩ :=
      Outcome.ended_inj.mp (hu.symm.trans (show _ = Outcome.ended (.ok a) s from rfl))
    exact ⟨rfl, rfl, rfl⟩
  · rintro ⟨rfl, rfl, rfl⟩
    exact ⟨0, s, rfl, rfl, rfl⟩

/-- A bind ends as its second part does from where the first one has ended, or in the signal of
that. -/
theorem ends_bind {r : Except Signal β} (hl : s.limit = none) : (p >>= f).Ends host s r t acts ↔
    (∃ x, r = .error x ∧ p.Ends host s (.error x) t acts) ∨
    ∃ a u first rest, p.Ends host s (.ok a) u first ∧ (f a).Ends host u r t rest ∧
      acts = first ++ rest := by
  constructor
  · rintro ⟨d, w, hw, rfl, rfl⟩
    rw [run_bind, Eval.bind_eq] at hw
    rw [trace_bind]
    rcases hp : p.run (evaluator host d) s with ⟨a, u⟩ | ⟨x, u⟩ | _
    · have hw : (f a).run (evaluator host d) u = .ended r w := by rwa [hp] at hw
      have hu : u.limit = none := limit_of_run (r := .ok a) hl hp
      refine .inr ⟨a, u.uncounted, _, _, .of_run (r := .ok a) hp,
        (Ends.of_run hw).recounted hu rfl, ?_⟩
      have hp : p.run (recorder host d).toEvaluator s = .value a u := hp
      rw [hp]
      exact Trace.acts_append
    · have hw : Outcome.signal x u = .ended r w := by rwa [hp] at hw
      obtain ⟨rfl, rfl⟩ :=
        Outcome.ended_inj.mp ((show Outcome.ended (.error x) u = _ from rfl).trans hw)
      have hp' : p.run (recorder host d).toEvaluator s = .signal x u := hp
      refine .inl ⟨x, rfl, d, u, hp, rfl, ?_⟩
      simp [hp', Outcome.after, onValue]
    · rw [hp] at hw
      exact absurd hw.symm Outcome.ended_ne_endless
  · rintro (⟨x, rfl, d, u, hu, rfl, rfl⟩ | ⟨a, u, first, rest, hp, hf, rfl⟩)
    · have hu : p.run (evaluator host d) s = .signal x u := hu
      refine ⟨d, u, ?_, rfl, ?_⟩
      · rw [run_bind, Eval.bind_eq, hu]
        rfl
      · have hu : p.run (recorder host d).toEvaluator s = .signal x u := hu
        simp [trace_bind, hu, Outcome.after, onValue]
    · obtain ⟨d, hd⟩ := hp.eventually hl
      obtain ⟨d', hd'⟩ := hf.eventually (hp.limit hl)
      obtain ⟨w, hw, hu, rfl⟩ := hd (max d d') (Nat.le_max_left d d') s rfl
      obtain ⟨z, hz, rfl, rfl⟩ :=
        hd' (max d d') (Nat.le_max_right d d') w (hu.trans hp.uncounted.symm)
      have hw : p.run (recorder host (max d d')).toEvaluator s = .value a w := hw
      refine ⟨max d d', z, ?_, rfl, ?_⟩
      · rw [run_bind, Eval.bind_eq]
        exact (congrArg (Outcome.andThen · _) hw).trans hz
      · rw [trace_bind, hw]
        exact Trace.acts_append

/-- After a first part that has a value all ends as the second part. -/
theorem ends_bind_of_ok {a : α} {first : List Deed} {r : Except Signal β} (hl : s.limit = none)
    (h : p.Ends host s (.ok a) u first) :
    (p >>= f).Ends host s r t acts ↔ ∃ rest, (f a).Ends host u r t rest ∧ acts = first ++ rest := by
  rw [ends_bind hl]
  constructor
  · rintro (⟨x, -, hp⟩ | ⟨b, w, first', rest, hp, hf, rfl⟩)
    · cases (h.unique hl hp).1
    · obtain ⟨⟨⟩, rfl, rfl⟩ := h.unique hl hp
      exact ⟨rest, hf, rfl⟩
  · rintro ⟨rest, hf, rfl⟩
    exact .inr ⟨a, u, first, rest, h, hf, rfl⟩

/-- What a plan has looked at does not change how it ends. -/
theorem ends_look {next : View → Plan α} :
    (look next).Ends host s r t acts ↔ (next s.view).Ends host s r t acts :=
  Iff.rfl

theorem ends_map {g : α → β} {r : Except Signal β} (hl : s.limit = none) :
    (g <$> p).Ends host s r t acts ↔ ∃ q, p.Ends host s q t acts ∧ r = q.map g := by
  rw [← bind_pure_comp, ends_bind hl]
  constructor
  · rintro (⟨x, rfl, hp⟩ | ⟨a, u, first, rest, hp, hr, rfl⟩)
    · exact ⟨.error x, hp, rfl⟩
    · obtain ⟨rfl, rfl, rfl⟩ := ends_pure.mp hr
      rw [hp.uncounted, List.append_nil]
      exact ⟨.ok a, hp, rfl⟩
  · rintro ⟨_ | a, hp, rfl⟩
    · exact .inl ⟨_, rfl, hp⟩
    · refine .inr ⟨a, t, acts, [], hp, ends_pure.mpr ⟨rfl, hp.uncounted.symm, rfl⟩,
        (List.append_nil _).symm⟩

namespace Alike

theorem refl (p : Plan α) : Alike host s p p := fun _ _ _ => Iff.rfl

theorem symm (h : Alike host s p q) : Alike host s q p := fun r t acts => (h r t acts).symm

theorem trans {p' : Plan α} (h : Alike host s p q) (h' : Alike host s q p') : Alike host s p p' :=
  fun r t acts => (h r t acts).trans (h' r t acts)

/-- The second parts need to be alike only where the first one ends. -/
theorem bind (hl : s.limit = none) (h : Alike host s p q)
    (hf : ∀ a u acts, p.Ends host s (.ok a) u acts → Alike host u (f a) (g a)) :
    Alike host s (p >>= f) (q >>= g) := by
  intro r t acts
  rw [ends_bind hl, ends_bind hl]
  refine or_congr (exists_congr fun x => and_congr_right fun _ => h _ _ _) ?_
  refine exists_congr fun a => exists_congr fun u => exists_congr fun first =>
    exists_congr fun rest => ?_
  constructor
  · exact fun ⟨hp, hr, ha⟩ => ⟨(h _ _ _).mp hp, (hf a u first hp r t rest).mp hr, ha⟩
  · exact fun ⟨hq, hr, ha⟩ =>
      have hp := (h _ _ _).mpr hq
      ⟨hp, (hf a u first hp r t rest).mpr hr, ha⟩

theorem map {g : α → β} (hl : s.limit = none) (h : Alike host s p q) :
    Alike host s (g <$> p) (g <$> q) := by
  intro r t acts
  rw [ends_map hl, ends_map hl]
  exact exists_congr fun q => and_congr_left fun _ => h _ _ _

/-- A first part that does nothing and has a value may be left out. -/
theorem bind_of_ok {a : α} (hl : s.limit = none) (h : p.Ends host s (.ok a) s.uncounted []) :
    Alike host s (p >>= f) (f a) := by
  intro r t acts
  rw [ends_bind_of_ok hl h]
  constructor
  · rintro ⟨rest, hf, rfl⟩
    exact Ends.recounted (s := s.uncounted) hl rfl hf
  · exact fun hf => ⟨acts, hf.recounted hl rfl, rfl⟩

end Alike

end Plan

/-! ### Nodes -/

variable {node : Node} {result : Except Signal Value}

/-- Without a limit a node ends as its plan does. -/
theorem ends_iff_plan (hl : s.limit = none) :
    Ends host node s ⟨result, t, acts⟩ ↔ node.plan.Ends host s result t acts := by
  constructor
  · rintro ⟨d, h⟩
    cases d with
    | zero => cases h
    | succ d =>
      rw [ending_succ hl] at h
      obtain ⟨w, hw, he⟩ := Outcome.ending_eq_some.mp h
      obtain ⟨-, rfl, rfl⟩ := Ending.mk.inj he
      exact Plan.Ends.recounted (s := s.ticked) hl rfl (.of_run hw)
  · intro h
    obtain ⟨d, hd⟩ := h.eventually hl
    obtain ⟨u, hu, rfl, rfl⟩ := hd d (Nat.le_refl d) s.ticked rfl
    exact ⟨d + 1, (ending_succ hl).trans (Outcome.ending_eq_some.mpr ⟨u, hu, rfl⟩)⟩

theorem ends_eval :
    (Plan.eval node).Ends host s result t acts ↔ Ends host node s ⟨result, t, acts⟩ := by
  have htrace (d : Nat) : (Plan.eval node).trace (recorder host d) s = trace host d node s := by
    change trace host d node s ++ (eval host d node s).after _ = _
    cases eval host d node s <;> exact List.append_nil _
  constructor
  · rintro ⟨d, u, hu, rfl, rfl⟩
    rw [Plan.run_eval] at hu
    rw [htrace]
    exact .of_ended hu
  · rintro ⟨d, h⟩
    obtain ⟨u, hu, he⟩ := Outcome.ending_eq_some.mp h
    obtain ⟨-, rfl, rfl⟩ := Ending.mk.inj he
    exact ⟨d, u, by rw [Plan.run_eval]; exact hu, rfl, by rw [htrace]⟩

/-- A plan that first evaluates a node ends in the signal of that, or as what it goes on with. -/
theorem ends_eval_bind {f : Value → Plan Value} {e : Ending} (hl : s.limit = none) :
    (Plan.eval node >>= f).Ends host s e.result e.state e.acts ↔
      (∃ x, e.result = .error x ∧ Ends host node s e) ∨
      ∃ (first : Ending) (v : Value) (rest : Ending), Ends host node s first ∧
        first.result = .ok v ∧
        (f v).Ends host first.state rest.result rest.state rest.acts ∧
        e = rest.after first.acts := by
  rw [Plan.ends_bind hl]
  constructor
  · rintro (⟨x, hr, h⟩ | ⟨v, u, first, rest, h, hf, ha⟩)
    · exact .inl ⟨x, hr, ends_eval.mp (hr ▸ h)⟩
    · refine .inr ⟨⟨.ok v, u, first⟩, v, ⟨e.result, e.state, rest⟩, ends_eval.mp h, rfl, hf, ?_⟩
      rw [Ending.after, ← ha]
  · rintro (⟨x, hr, h⟩ | ⟨first, v, rest, h, hv, hf, rfl⟩)
    · exact .inl ⟨x, hr, ends_eval.mpr (hr ▸ h)⟩
    · exact .inr ⟨v, first.state, first.acts, rest.acts, ends_eval.mpr (hv ▸ h), hf, rfl⟩

/-- To evaluate a node is to carry out its plan. -/
theorem alike_eval (hl : s.limit = none) : Plan.Alike host s (Plan.eval node) node.plan :=
  fun _ _ _ => ends_eval.trans (ends_iff_plan hl)

end ExprTree
