import ExprTree.Proofs.ControlNodes
import ExprTree.Proofs.TypedNodes

/-! The nodes that bind names or catch signals. A label has one type, so a value that a jump brings
to it fits there. -/
namespace ExprTree.Typing

open Evaluator Build

variable {Γ : Typing} {ev : Evaluator} {w u : Store} {n : Node} {ns all : List Node}
  {x : Option Node} {t : Ty} {v : Value} {j : Prop}

theorem afterLabel?_spec {l : Label} {rest : List Node} (h : afterLabel? l all = some rest) :
    ∃ front id k y, all = front ++ .label id k y :: rest ∧ k.id = l.id := by
  induction all with
  | nil => simp [afterLabel?] at h
  | cons n ns ih =>
    have htail (h : afterLabel? l ns = some rest) :
        ∃ front id k y, n :: ns = front ++ .label id k y :: rest ∧ k.id = l.id := by
      obtain ⟨front, id, k, y, rfl, hk⟩ := ih h
      exact ⟨n :: front, id, k, y, rfl, hk⟩
    cases n with
    | label id k y =>
      simp only [afterLabel?] at h
      split at h
      · rename_i hk
        cases h
        exact ⟨[], id, k, y, rfl, by simpa [BEq.beq] using hk⟩
      · exact htail h
    | _ => exact htail h

/-- Two labels of one id have one type. -/
theorem jump_typed {k l : Label} (hk : k.ty = Γ.label k.id) (hid : k.id = l.id)
    (h : Γ.Allows j w (.jump l v)) : Γ.Has w v k.ty := by
  obtain ⟨_, hv, hl⟩ := h
  have hkl : k.ty = l.ty := by rw [hk, hl, hid]
  exact hkl ▸ hv

theorem label_declared {id : Nat} {l : Label} (hn : Γ.Tree w (.label id l x)) :
    l.ty = Γ.label l.id :=
  hn.here.declared.targets l (by simp [Node.targets])

theorem allows_mono {y : Signal} (hu : w.Extends u) (h : Γ.Allows j w y) : Γ.Allows j u y := by
  cases y with
  | fatal e => exact h
  | thrown v => exact Backed.mono hu h
  | jump l v => exact ⟨h.1, h.2.1.mono hu, h.2.2⟩

theorem yields_passed {α : Type} {Q : Store → α → Prop} {y : Signal} (h : Γ.Allows j w y) :
    Γ.Yields j w Q (Eval.signal y) :=
  yields_signal fun _ hu => allows_mono hu h

variable (he : Γ.Evaluates ev)

include he

/-! ### Sequences, loops and labels -/

/-- The sequence ends with a value of its last expression, or with one that a jump brought to a
label at its end. -/
theorem runSequence_gives (hn : ∀ n ∈ all, Γ.Tree w n)
    (hlast : ∀ n, all.getLast? = some n → FitsBranch t n) {k : Nat} {last : Value} (hs : ns <:+ all)
    (hl : ns = [] → Γ.Has w last t) : Γ.Gives True w t (ev.runSequence all k ns last) := by
  induction k generalizing w ns last with
  | zero =>
    cases ns with
    | nil => exact gives_pure (hl rfl)
    | cons n ns => exact yields_endless
  | succ k ih =>
    cases ns with
    | nil => exact gives_pure (hl rfl)
    | cons n ns =>
      have hend {m : Node} {rest : List Node} (hm : m :: rest <:+ all) (hr : rest = []) :
          FitsBranch t m := by
        subst hr
        obtain ⟨front, rfl⟩ := hm
        exact hlast m (by simp)
      have htree := hn n (hs.subset (by simp))
      rw [runSequence_cons]
      refine (he w n htree).outcome_bind (fun v u hu hv => ?_) ?_
      · refine ih (fun m hm => (hn m hm).mono hu) ((List.suffix_cons n ns).trans hs) fun hnil => ?_
        exact hv.typed (hend hs hnil)
      · rintro (e | y | ⟨l, v⟩) u hu hx
        · exact yields_passed hx
        · exact yields_passed hx
        · simp only
          split
          · rename_i rest hrest
            obtain ⟨front, id, m, y, rfl, hid⟩ := afterLabel?_spec hrest
            have hm := hn (.label id m y) (by simp)
            have hsuf : .label id m y :: rest <:+ front ++ .label id m y :: rest :=
              List.suffix_append _ _
            refine ih (fun q hq => (hn q hq).mono hu)
              ((List.suffix_cons _ _).trans hsuf) fun hnil => ?_
            -- The label at the end completes with what the jump brought.
            have hv : Γ.Completes (.label id m y) u v :=
              ⟨jump_typed (label_declared hm) hid hx, rfl⟩
            exact hv.typed (hend hsuf hnil)
          · exact yields_passed hx

theorem evalBlock_gives {id : Nat} {vars : List Param} (hn : Γ.Tree w (.block id vars ns t)) :
    Γ.Gives True w t (ev.evalBlock vars ns t) := by
  have hreg := hn.here
  have hns : ∀ n ∈ ns, Γ.Tree w n := fun n hm => hn.child hm
  have hrun : Γ.Gives True w t (ev.runSequence ns ev.depth ns .void) := by
    refine runSequence_gives he hns (fun n => Node.made_block hreg.made) (List.suffix_refl ns) ?_
    rintro rfl
    obtain rfl : t = .void := by simpa [Node.Irregular] using hreg.regular
    exact void_typed
  unfold evalBlock
  cases vars with
  | nil => exact hrun.bind fun _ _ _ hv => gives_pure hv.result
  | cons p ps =>
    refine (hrun.withBindings fun i v h => ?_).bind fun _ _ _ hv => gives_pure hv.result
    obtain ⟨q, hq, h⟩ := List.mem_map.mp h
    cases h
    exact hreg.declared.slots q hq ▸ zero_typed

theorem runLoop_gives {id k : Nat} {b c : Option Label} (hn : Γ.Tree w (.loop id n b c)) :
    Γ.Gives True w ((b.map Label.ty).getD .void) (ev.runLoop n b c k) := by
  induction k generalizing w with
  | zero => exact yields_endless
  | succ k ih =>
    rw [runLoop_succ]
    refine (he w n (hn.child (by simp [Node.children]))).outcome_bind
      (fun _ u hu _ => ih (hn.mono hu)) ?_
    rintro (e | y | ⟨l, v⟩) u hu hx
    · exact yields_passed hx
    · exact yields_passed hx
    · refine yields_ite (fun hb => ?_) fun _ => yields_ite (fun _ => ih (hn.mono hu)) fun _ =>
        yields_passed hx
      cases b with
      | none => cases hb
      | some m =>
        have hid := beq_iff_id.mp hb
        have hm := hn.here.declared.targets m (by simp [Node.targets])
        have hml : m.ty = l.ty := by rw [hm, hx.2.2, hid]
        exact gives_pure (hml ▸ hx.2.1.result)

theorem evalLabel_gives {id : Nat} {l : Label} (hn : Γ.Tree w (.label id l x)) :
    Γ.Gives True w l.ty (ev.evalLabel l x) := by
  cases x with
  | none => exact gives_pure zero_typed
  | some y =>
    have hy : Γ.Tree w y := hn.child (by simp [Node.children])
    refine (branch_gives he hy (Node.made_label hn.here.made y rfl)).outcome_bind
      (fun v u _ hv => gives_pure hv) ?_
    rintro (e | y | ⟨m, v⟩) u hu hx
    · exact yields_passed hx
    · exact yields_passed hx
    · refine yields_ite (fun hm => ?_) fun _ => yields_passed hx
      exact gives_pure (jump_typed (label_declared hn) (beq_iff_id.mp hm).symm hx)

/-- A jump brings its label a value that the label may have. -/
theorem evalGoto_yields {Q : Store → Value → Prop} {id : Nat} {kind : JumpKind} {l : Label}
    (hn : Γ.Tree w (.goto id kind l x t)) : Γ.Yields True w Q (ev.evalGoto l x) := by
  have hl := hn.here.declared.targets l (by simp [Node.targets])
  have hjump {v : Value} {u : Store} (hv : Γ.Has u v l.ty) :
      Γ.Yields True u Q (Eval.signal (.jump l v)) :=
    yields_passed ⟨trivial, hv, hl⟩
  rcases Node.made_goto hn.here.made with ⟨rfl, ht⟩ | ⟨y, rfl, ht⟩
  · exact (gives_pure void_typed).bind fun v u _ hv => hjump (ht ▸ hv)
  · exact (eval_gives he (hn.child (by simp [Node.children]))).bind
      fun v u _ hv => hjump (hv.stored (Or.inr ht))

omit he in
theorem closure_gives {f : Lambda} (hf : Γ.Tree w (.lambda f)) : Γ.Gives j w f.ty (closure f) := by
  refine yields_get.bind ?_
  rintro s _ hs ⟨rfl, hi⟩
  refine yields_withStore fun u hu hok => ⟨(native_newDelegate u _ _).toExtends, ?_⟩
  exact closure_typed hok (hf.mono (hs.trans hu)) fun i v hv =>
    (hi.slots (Environment.entry_of_mem_capture hv)).mono hu

/-! ### Guarded bodies -/

/-- The clause may handle what it names: its variable may hold that, and its filter is a truth
value. -/
structure ClauseOk (Γ : Typing) (w : Store) (t : Ty) (h : CatchClause) : Prop where
  made : h.Made
  branch : FitsBranch t h.body
  nodes : ∀ n ∈ h.nodes, Γ.Tree w n
  slot : ∀ p ∈ h.var, p.ty = Γ.param p.id

omit he in
theorem ClauseOk.mono {h : CatchClause} (hu : w.Extends u) (hc : Γ.ClauseOk w t h) :
    Γ.ClauseOk u t h :=
  ⟨hc.made, hc.branch, fun n hn => (hc.nodes n hn).mono hu, hc.slot⟩

omit he in
theorem bindings_typed {h : CatchClause} (hc : Γ.ClauseOk w t h) (hv : Γ.Backed w v)
    (hi : v.isInstanceOf h.test) : ∀ i y, (i, y) ∈ bindings h v → Γ.Has w y (Γ.param i) := by
  intro i y hy
  unfold bindings at hy
  cases hp : h.var with
  | none => simp [hp] at hy
  | some p =>
    obtain ⟨rfl, rfl⟩ : i = p.id ∧ y = v := by simpa [hp] using hy
    rw [← hc.slot p hp]
    exact ⟨Value.fits_of_accepts ((Node.made_clause hc.made).1 p hp)
      (Value.fits_of_isInstanceOf hi), hv⟩

theorem accepts_yields {h : CatchClause} (hc : Γ.ClauseOk w t h) {bs : Slots}
    (hb : ∀ i y, (i, y) ∈ bs → Γ.Has w y (Γ.param i)) :
    Γ.Yields True w (fun _ _ => True) (ev.accepts h bs) := by
  unfold accepts
  split
  · exact yields_pure fun _ _ => trivial
  · rename_i f hf
    have hft : Γ.Tree w f := hc.nodes f (by simp [CatchClause.nodes, hf])
    refine ((eval_gives he hft).withBindings hb).outcome_bind (fun v u _ _ => ?_) ?_
    · cases v <;> exact yields_pure fun _ _ => trivial
    · rintro (e | y | ⟨l, v⟩) u _ hx
      · exact yields_passed hx
      · exact yields_pure fun _ _ => trivial
      · exact yields_passed hx

theorem handle_gives {fault : Option Node} {handlers : List CatchClause} (hv : Γ.Backed w v)
    (hf : ∀ n ∈ fault, Γ.Tree w n) (hc : ∀ h ∈ handlers, Γ.ClauseOk w t h) :
    Γ.Gives True w t (ev.handle v fault handlers) := by
  induction handlers generalizing w with
  | nil =>
    cases fault with
    | none => exact yields_passed hv
    | some n => exact (he w n (hf n rfl)).bind fun _ u hu _ => yields_passed (hv.mono hu)
  | cons h hs ih =>
    have hh := hc h (by simp)
    have hrest (u : Store) (hu : w.Extends u) : Γ.Gives True u t (ev.handle v fault hs) :=
      (ih hv hf fun k hk => hc k (List.mem_cons_of_mem _ hk)).later hu
    refine yields_ite (fun hi => ?_) fun _ => hrest w (.refl w)
    have hb := bindings_typed hh hv hi
    refine (accepts_yields he hh hb).bind fun b u hu _ =>
      yields_ite (fun _ => ?_) fun _ => hrest u hu
    have hbody : Γ.Tree w h.body := hh.nodes h.body (by simp [CatchClause.nodes])
    exact (((branch_gives he hbody hh.branch).withBindings hb).withHandling hv).later hu

theorem evalGuarded_gives {id : Nat} {handlers : List CatchClause} {fin fault : Option Node}
    (hn : Γ.Tree w (.guarded id n handlers fin fault)) :
    Γ.Gives True w n.ty (ev.evalGuarded n handlers fin fault) := by
  have hmade := Node.made_guarded hn.here.made
  have hclause (h : CatchClause) (hh : h ∈ handlers) : Γ.ClauseOk w n.ty h := by
    refine ⟨(hmade h hh).1, (hmade h hh).2, fun q hq => hn.child ?_, fun p hp => ?_⟩
    · simp only [Node.children, List.mem_cons, List.mem_append, List.mem_flatMap]
      exact Or.inr (Or.inl ⟨h, hh, hq⟩)
    · exact hn.here.declared.slots p (List.mem_filterMap.mpr ⟨h, hh, hp⟩)
  have hfault (q : Node) (hq : q ∈ fault) : Γ.Tree w q := hn.child (by simp_all [Node.children])
  have hfin (q : Node) (hq : q ∈ fin) : Γ.Tree w q := hn.child (by simp_all [Node.children])
  have hlast {r : Except Signal Value} {u : Store} (hr : Γ.Gives True u n.ty (Eval.ofResult r)) :
      Γ.Gives True u n.ty (do return n.ty.result (← Eval.ofResult r)) :=
    hr.bind fun _ _ _ hv => gives_pure hv.result
  have hbody : Γ.Gives True w n.ty (ev.eval n) := eval_gives he (hn.child (by simp [Node.children]))
  refine Yields.outcome_bind (k := True) (Q := fun u v => Γ.Has u v n.ty) ?_ (fun v u hu hv => ?_)
    fun y u hu hy => ?_
  · refine hbody.outcome_bind (fun v u _ hv => gives_pure hv) ?_
    rintro (e | y | ⟨l, v⟩) u hu hx
    · exact yields_passed hx
    · exact handle_gives he hx (fun q hq => (hfault q hq).mono hu) fun h hh =>
        (hclause h hh).mono hu
    · exact yields_passed hx
  · cases fin with
    | none => exact hlast (gives_pure hv)
    | some f =>
      have hf := (hfin f rfl).mono hu
      exact (he u f hf).bind fun _ u' hu' _ => hlast (gives_pure (hv.mono hu'))
  · cases fin with
    | none => exact hlast (yields_passed hy)
    | some f =>
      have hf := (hfin f rfl).mono hu
      exact (he u f hf).bind fun _ u' hu' _ => hlast (yields_passed (allows_mono hu' hy))

end ExprTree.Typing
