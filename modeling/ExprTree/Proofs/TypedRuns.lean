import ExprTree.Proofs.Typing

/-! Well-typed runs: from every well-typed state whose store extends a given one, with what that
says of values and signals. -/
namespace ExprTree

/-- The errors that tell of a tree whose parts do not go together. -/
def EvalError.isStuck : EvalError → Bool
  | .typeMismatch .. | .arityMismatch .. | .notAssignable _ | .unsupportedNode _ => true
  | _ => false

namespace Typing

variable {Γ : Typing} {j : Prop} {w u : Store} {α β : Type} {Q : Store → α → Prop}
  {R : Store → β → Prop} {m : Eval α} {f : α → Eval β}

/-- The state is well typed and stays so, and its store only grows. -/
def contract (Γ : Typing) : Contract where
  inv := Γ.Inv
  step s t := s.store.Extends t.store
  refl s := .refl s.store
  trans := .trans

/-- A signal is well typed; a jump takes along what its label may have, and leaves where `j`
holds. -/
def Allows (Γ : Typing) (j : Prop) (w : Store) : Signal → Prop
  | .fatal e => e.isStuck = false
  | .thrown x => Γ.Backed w x
  | .jump l v => j ∧ Γ.Has w v l.ty ∧ l.ty = Γ.label l.id

/-- From every well-typed state whose store extends `w` the run keeps all well typed, with values in
`Q` and with signals allowed. -/
def Yields (Γ : Typing) (j : Prop) (w : Store) (Q : Store → α → Prop) (m : Eval α) : Prop :=
  ∀ s, Γ.Inv s → w.Extends s.store →
    Γ.contract.Holds (fun x t => Γ.Allows j t.store x) (fun a t => Q t.store a) m s

/-- A run that gives values of a type. -/
abbrev Gives (Γ : Typing) (j : Prop) (w : Store) (t : Ty) (m : Eval Value) : Prop :=
  Γ.Yields j w (fun u v => Γ.Has u v t) m

theorem Allows.weaken {x : Signal} (h : Γ.Allows False w x) : Γ.Allows j w x := by
  cases x with
  | jump l v => exact h.1.elim
  | _ => exact h

theorem Yields.weaken (h : Γ.Yields False w Q m) : Γ.Yields j w Q m :=
  fun s hs hw => (h s hs hw).mono (fun _ _ => Allows.weaken) fun _ _ _ _ hq => hq

theorem Yields.mono {Q' : Store → α → Prop} (h : Γ.Yields j w Q m)
    (hq : ∀ u a, w.Extends u → Q u a → Q' u a) : Γ.Yields j w Q' m := by
  intro s hs hw
  refine (h s hs hw).mono (fun _ _ hp => hp) ?_
  intro a t _ ht ha
  exact hq t.store a (hw.trans ht) ha

theorem Yields.later (h : Γ.Yields j w Q m) (hu : w.Extends u) : Γ.Yields j u Q m :=
  fun s hs hw => h s hs (hu.trans hw)

theorem Yields.bind (hm : Γ.Yields j w Q m)
    (hf : ∀ a u, w.Extends u → Q u a → Γ.Yields j u R (f a)) : Γ.Yields j w R (m >>= f) := by
  intro s hs hw
  refine (hm s hs hw).bind ?_
  intro a t ht hst ha
  exact hf a t.store (hw.trans hst) ha t ht (.refl _)

theorem Yields.outcome_bind {k : Prop} {f : Except Signal α → Eval β} (hm : Γ.Yields k w Q m)
    (hv : ∀ a u, w.Extends u → Q u a → Γ.Yields j u R (f (.ok a)))
    (hx : ∀ x u, w.Extends u → Γ.Allows k u x → Γ.Yields j u R (f (.error x))) :
    Γ.Yields j w R (m.outcome >>= f) := by
  intro s hs hw
  refine Contract.Holds.bind (hm s hs hw).outcome ?_
  rintro (x | a) t ht hst hr
  · exact hx x t.store (hw.trans hst) hr t ht (.refl _)
  · exact hv a t.store (hw.trans hst) hr t ht (.refl _)

theorem yields_pure {a : α} (h : ∀ u, w.Extends u → Q u a) : Γ.Yields j w Q (pure a) :=
  fun _ hs hw => Contract.holds_pure hs (h _ hw)

theorem gives_pure {t : Ty} {v : Value} (h : Γ.Has w v t) : Γ.Gives j w t (pure v) :=
  yields_pure fun _ hu => h.mono hu

theorem Yields.map {g : α → β} (hm : Γ.Yields j w Q m) (hg : ∀ u a, Q u a → R u (g a))
    (hR : ∀ a u u', u.Extends u' → R u a → R u' a) : Γ.Yields j w R (g <$> m) :=
  hm.bind fun a _ _ ha => yields_pure fun _ hu => hR _ _ _ hu (hg _ a ha)

theorem yields_signal {x : Signal} (h : ∀ u, w.Extends u → Γ.Allows j u x) :
    Γ.Yields j w Q (Eval.signal x) :=
  fun _ hs hw => Contract.holds_signal hs (h _ hw)

theorem yields_endless : Γ.Yields j w Q Eval.endless := fun _ _ _ => trivial

theorem yields_ite {p : Prop} [Decidable p] {m n : Eval α} (hm : p → Γ.Yields j w Q m)
    (hn : ¬p → Γ.Yields j w Q n) : Γ.Yields j w Q (if p then m else n) := by
  split
  · exact hm ‹_›
  · exact hn ‹_›

theorem yields_store : Γ.Yields j w (fun u a => a = u ∧ Γ.StoreOk u) Eval.store :=
  fun _ hs _ => ⟨hs, .refl _, rfl, hs.store⟩

theorem yields_get : Γ.Yields j w (fun u s => s.store = u ∧ Γ.Inv s) Eval.get :=
  fun _ hs _ => ⟨hs, .refl _, rfl, hs⟩

theorem yields_withStore {g : Store → α × Store}
    (h : ∀ u, w.Extends u → Γ.StoreOk u →
      u.Extends (g u).2 ∧ Γ.StoreOk (g u).2 ∧ Q (g u).2 (g u).1) :
    Γ.Yields j w Q (Eval.withStore g) := by
  intro s hs hw
  obtain ⟨hext, hok, hq⟩ := h s.store hw hs.store
  exact Contract.holds_withStore (hs.later hext hok) hext hq

/-! ### Errors -/

theorem yields_fatal {e : EvalError} (h : e.isStuck = false) : Γ.Yields j w Q (Eval.fatal e) :=
  yields_signal fun _ _ => h

theorem yields_throw {c : ClassType} {message : String} :
    Γ.Yields j w Q (Eval.fault (.raise c message)) := by
  have hx : Γ.Yields j w (fun u v => Γ.Backed u v) (Eval.withStore (·.newException c message)) :=
    yields_withStore fun u _ hok =>
      ⟨(native_newException u c message).toExtends, storeOk_newException hok, trivial⟩
  exact hx.bind fun v u _ hv => yields_signal fun _ hu => hv.mono hu

theorem yields_ofExcept {G : α → Prop} {F : EvalError → Prop} {r : Except Fault α}
    (hr : Lands G F r) (hv : ∀ a u, w.Extends u → G a → Q u a) (hF : ∀ e, F e → e.isStuck = false) :
    Γ.Yields j w Q (Eval.ofExcept r) := by
  cases r with
  | ok a => exact yields_pure fun u hu => hv a u hu hr
  | error x =>
    cases x with
    | fatal e => exact yields_fatal (hF e hr)
    | raise c message => exact yields_throw
    | endless => exact yields_endless

theorem notStuck_of_operand {e : EvalError} (h : e.isOperand) : e.isStuck = false := by
  cases e <;> first | rfl | cases h

theorem yields_tick : Γ.Yields j w (fun _ _ => True) Eval.tick := by
  intro s hs _
  have hi : Γ.Inv { s with steps := s.steps + 1 } := ⟨hs.slots, hs.handling, hs.store⟩
  exact Eval.ifEnds_tick ⟨hi, .refl _, trivial⟩ fun n => ⟨hi, .refl _, rfl⟩

/-! ### Frames -/

theorem Yields.withBindings {bs : Slots} (hm : Γ.Yields j w Q m)
    (hb : ∀ i v, (i, v) ∈ bs → Γ.Has w v (Γ.param i)) : Γ.Yields j w Q (m.withBindings bs) := by
  intro s hs hw
  have hin : Γ.Inv { s with env := s.env.push.defineAll bs } := by
    refine ⟨fun {i v} he => ?_, hs.handling, hs.store⟩
    rcases Environment.entry_push_defineAll he with h | h
    · exact (hb i v h).mono hw
    · exact hs.slots h
  refine Eval.ifEnds_around.mpr (Eval.IfEnds.mono (hm _ hin hw) ?_)
  rintro r t ⟨ht, hst, hr⟩
  refine ⟨⟨fun he => ht.slots (Environment.entry_of_pop he), ht.handling, ht.store⟩, hst, ?_⟩
  cases r <;> exact hr

theorem Yields.withHandling {x : Value} (hm : Γ.Yields j w Q m) (hx : Γ.Backed w x) :
    Γ.Yields j w Q (m.withHandling x) := by
  intro s hs hw
  have hin : Γ.Inv { s with handling := x :: s.handling } := by
    refine ⟨hs.slots, fun y hy => ?_, hs.store⟩
    rcases List.mem_cons.mp hy with rfl | hy
    · exact hx.mono hw
    · exact hs.handling y hy
  refine Eval.ifEnds_around.mpr (Eval.IfEnds.mono (hm _ hin hw) ?_)
  rintro r t ⟨ht, hst, hr⟩
  refine ⟨⟨ht.slots, fun y hy => ht.handling y (List.mem_of_mem_tail hy), ht.store⟩, hst, ?_⟩
  cases r <;> exact hr

theorem lookup_gives {p : Param} (hp : p.ty = Γ.param p.id) :
    Γ.Gives j w p.ty (Evaluator.lookup p) := by
  intro s hs hw
  refine Eval.ifEnds_lookup (fun v hv => ⟨hs, .refl _, ?_⟩) fun _ => ⟨hs, .refl _, rfl⟩
  exact hp ▸ hs.slots (Environment.entry_of_lookup hv)

theorem assign_yields {p : Param} {v : Value} (hp : p.ty = Γ.param p.id) (hv : Γ.Has w v p.ty) :
    Γ.Yields j w (fun _ _ => True) (Evaluator.assign p v) := by
  intro s hs hw
  refine Eval.ifEnds_assign (fun env ha => ?_) fun _ => ⟨hs, .refl _, rfl⟩
  refine ⟨⟨fun {i x} he => ?_, hs.handling, hs.store⟩, .refl _, trivial⟩
  rcases (Environment.assign?_spec ha).2 i x he with ⟨rfl, rfl⟩ | he
  · exact hp ▸ hv.mono hw
  · exact hs.slots he

end Typing

end ExprTree
