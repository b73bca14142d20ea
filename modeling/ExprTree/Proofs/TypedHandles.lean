import ExprTree.Proofs.TypedRuns

/-! Calls of lambdas, delegates and handles. Host code is assumed to keep the store well typed, to
reply with values of the declared types, and neither to jump nor to fail as an ill-typed tree
would. -/
namespace ExprTree

namespace Typing

variable (Γ : Typing)

/-- What a call may end in: a value of the type, or a signal that is no jump. -/
def Reply (t : Ty) (w : Store) : Except Signal Value → Prop
  | .ok v => Γ.Has w v t
  | .error x => Γ.Allows False w x

/-- The routine, having the store `w`, leaves a well-typed store and replies with a value of type
`t`, as long as the delegates that it invokes reply as their types say. It invokes them as their
types ask. -/
def Honest (t : Ty) (w : Store) : Routine → Prop
  | .finish result u => w.Extends u ∧ Γ.StoreOk u ∧ Γ.Reply t u result
  | .invoke f args u resume => w.Extends u ∧ Γ.StoreOk u ∧ ∃ ps ret, Γ.Has u f (.fn ps ret) ∧
    List.Forall₂ (Γ.Has u) args ps ∧ ∀ r u', u.Extends u' → Γ.StoreOk u' → Γ.Reply ret u' r →
      Honest t u' (resume r u')

/-- From every well-typed store the code is honest. -/
def Trusted (w : Store) (t : Ty) (run : Store → Routine) : Prop :=
  ∀ u, w.Extends u → Γ.StoreOk u → Γ.Honest t u (run u)

/-- A use of a handle with a receiver and arguments of the types is trusted. -/
def Fulfils (h : Host) : Use → Prop
  | .method m receiver args => ∀ w r vs, Option.Rel (Γ.Has w) r receiver →
    List.Forall₂ (Γ.Has w) vs args → Γ.Trusted w m.ret (h.callMethod m r vs)
  | .construct c =>
    ∀ w vs, List.Forall₂ (Γ.Has w) vs c.params → Γ.Trusted w c.ty (h.callConstructor c vs)
  | .get m target => ∀ w x, Option.Rel (Γ.Has w) x target → Γ.Trusted w m.ty (h.readMember m x)
  | .set m target => ∀ w x v, Option.Rel (Γ.Has w) x target → Γ.Has w v m.ty →
    Γ.Trusted w .void (h.writeMember m x v)
  | .getItem i target => ∀ w x vs, Γ.Has w x target → List.Forall₂ (Γ.Has w) vs i.params →
    Γ.Trusted w i.item (h.readItem i x vs)
  | .setItem i target => ∀ w x vs v, Γ.Has w x target → List.Forall₂ (Γ.Has w) vs i.params →
    Γ.Has w v i.item → Γ.Trusted w .void (h.writeItem i x vs v)

/-! ### The built-in bodies -/

section

variable {Γ} {h : Host} {w : Store} {t e : Ty}

theorem trusted_throw {c : ClassType} {message : String} :
    Γ.Trusted w t (Routine.throw c message) :=
  fun u _ hok =>
    ⟨(native_newException u c message).toExtends, storeOk_newException (c := c) hok, trivial⟩

/-- Appending to a list is a use that a host fulfils who leaves lists alone. -/
theorem listAdd_fulfils {m : Method} (hb : m.body = .addToList) (hs : m.isStatic = false)
    (hr : m.ret = .void) (ho : ∀ s lists, Γ.own s → Γ.own { s with lists }) :
    Γ.Fulfils h (.method m (some (.list e)) [e]) := by
  intro w r vs hrel hvs
  cases hrel with
  | some hv =>
    obtain ⟨x, _, _, hnil, rfl⟩ := List.forall₂_cons_right_iff.mp hvs
    obtain rfl := List.forall₂_nil_right_iff.mp hnil
    simp only [Host.callMethod, hs, hb, hr]
    obtain rfl | ⟨addr, rfl⟩ := Value.fits_list hv.fits
    · exact trusted_throw
    · exact fun u _ hok => ⟨.of_eq rfl rfl, hok.carry rfl rfl (ho u _ hok.own), void_typed⟩

theorem newList_fulfils {c : Constructor} (hb : c.body = .list e) (ht : c.ty = .list e)
    (ho : ∀ s lists, Γ.own s → Γ.own { s with lists }) : Γ.Fulfils h (.construct c) := by
  intro w vs _
  simp only [Host.callConstructor, hb, ht]
  exact fun u _ hok =>
    ⟨.of_eq rfl rfl, hok.carry rfl rfl (ho u _ hok.own), Value.fits_runtimeType, trivial⟩

end

/-- What is assumed of the host: every use of a handle that there is, and its delegates. -/
structure Assumed (h : Host) : Prop where
  handle {x : Use} : Γ.uses x → Γ.Fulfils h x
  delegate (id : Nat) {w : Store} {vs : List Value} :
    List.Forall₂ (Γ.Has w) vs (Γ.delegate id).params →
      Γ.Trusted w (Γ.delegate id).ret (h.delegate id vs)

/-- The value of a node is of its static type, and a node that diverges has none. -/
def Completes (n : Node) (w : Store) (v : Value) : Prop := Γ.Has w v n.ty ∧ Build.diverges n = false

/-- Every tree evaluates as its types say. -/
def Evaluates (ev : Evaluator) : Prop :=
  ∀ w n, Γ.Tree w n → Γ.Yields True w (Γ.Completes n) (ev.eval n)

variable {Γ} {j : Prop} {w u : Store} {t : Ty} {ev : Evaluator} {v : Value} {vs : List Value}

open Evaluator

/-- A well-typed call for a delegate and its arguments. -/
def Calls (Γ : Typing) (call : Value → List Value → Eval Value) : Prop :=
  ∀ w f args ps ret, Γ.Has w f (.fn ps ret) → List.Forall₂ (Γ.Has w) args ps →
    Γ.Gives False w ret (call f args)

theorem runRoutine_ends {call : Value → List Value → Eval Value} (hc : Γ.Calls call) {r : Routine}
    (hr : Γ.Honest t w r) {s : State} (hs : Γ.Inv { s with store := w }) :
    (runRoutine call r).IfEnds s fun r u => Γ.Inv u ∧ w.Extends u.store ∧ Γ.Reply t u.store r := by
  induction r generalizing w s with
  | finish result u =>
    obtain ⟨hu, hok, hres⟩ := hr
    exact Eval.ifEnds_finish.mpr ⟨hs.later hu hok, hu, hres⟩
  | invoke f args u resume ih =>
    obtain ⟨hu, hok, ps, ret, hf, hargs, hres⟩ := hr
    have hin : Γ.Inv { s with store := u } := hs.later hu hok
    refine Eval.ifEnds_invoke.mpr
      (Eval.IfEnds.mono (hc u f args ps ret hf hargs _ hin (.refl _)) ?_)
    rintro r t ⟨ht, hst, hr⟩
    have hreply : Γ.Reply ret t.store r := by cases r <;> exact hr
    refine Eval.IfEnds.mono (ih r t.store (hres r t.store hst ht.store hreply)
      (s := { t with store := {} }) ht) ?_
    rintro r' u' ⟨hu', hst', hr'⟩
    exact ⟨hu', hu.trans (hst.trans hst'), hr'⟩

theorem onStore_gives {call : Value → List Value → Eval Value} (hc : Γ.Calls call)
    {run : Store → Routine} (hr : Γ.Trusted w t run) : Γ.Gives False w t (onStore call run) := by
  intro s hs hw
  refine Eval.ifEnds_onStore.mpr (Eval.IfEnds.mono (runRoutine_ends hc (hr s.store hw hs.store)
    (s := { s with store := {} }) hs) ?_)
  rintro r u ⟨hu, hst, hr⟩
  exact ⟨hu, hst, by cases r <;> exact hr⟩

theorem isolated_gives {captures : Slots} {limit : Option Nat} {m : Eval Value}
    (hc : ∀ i v, (i, v) ∈ captures → Γ.Has w v (Γ.param i)) (hm : Γ.Gives j w t m) :
    Γ.Gives j w t (isolated captures limit m) := by
  intro s hs hw
  have hin : Γ.Inv ⟨.ofCaptures captures, [], 0, limit, s.store⟩ :=
    ⟨fun he => (hc _ _ (Environment.mem_of_entry_ofCaptures he)).mono hw, by simp, hs.store⟩
  refine Eval.ifEnds_isolated.mpr (Eval.IfEnds.mono (hm _ hin hw) ?_)
  rintro r u ⟨hu, hst, hr⟩
  refine ⟨hs.later hst hu.store, hst, ?_⟩
  cases r <;> exact hr

/-- Starting over with the count and the handlers changes nothing that is typed. -/
theorem yields_fresh : Γ.Yields j w (fun _ _ => True)
    (Eval.modify fun s => { s with steps := 0, handling := [] }) :=
  fun _ hs _ => ⟨⟨hs.slots, by simp, hs.store⟩, .refl _, trivial⟩

theorem Has.result (h : Γ.Has w v t) : Γ.Has w (t.result v) t := by
  unfold Ty.result
  split
  · rename_i hv
    obtain rfl := Build.isVoid_iff.mp hv
    exact ⟨Value.fits_void, trivial⟩
  · exact h

theorem Has.stored {t' : Ty} (ht : t = .void ∨ t.accepts t') (h : Γ.Has w v t') : Γ.Has w v t := by
  rcases ht with rfl | ht
  · exact ⟨Value.fits_void, h.backed⟩
  · exact ⟨Value.fits_of_accepts ht h.fits, h.backed⟩

theorem zip_typed {ps : List Param} (hp : ∀ p ∈ ps, p.ty = Γ.param p.id)
    (hv : List.Forall₂ (Γ.Has w) vs (ps.map Param.ty)) :
    ∀ i v, (i, v) ∈ (ps.map Param.id).zip vs → Γ.Has w v (Γ.param i) := by
  induction ps generalizing vs with
  | nil => simp
  | cons p ps ih =>
    obtain ⟨x, xs, hx, hxs, rfl⟩ := List.forall₂_cons_right_iff.mp hv
    intro i v h
    rcases List.mem_cons.mp h with h | h
    · cases h
      exact hp p (by simp) ▸ hx
    · exact ih (fun q hq => hp q (List.mem_cons_of_mem _ hq)) hxs i v h

/-- A lambda gives what it declares, and no jump leaves it. -/
theorem callLambda_gives (he : Γ.Evaluates ev) {f : Lambda} {captures : Slots} {limit : Option Nat}
    (hf : Γ.Tree w (.lambda f)) (hc : ∀ i v, (i, v) ∈ captures → Γ.Has w v (Γ.param i))
    (ha : List.Forall₂ (Γ.Has w) vs (f.params.map Param.ty)) :
    Γ.Gives False w f.ret (ev.callLambda f captures limit vs) := by
  refine isolated_gives hc ?_
  have hlen : f.params.length = vs.length := by simpa using ha.length_eq.symm
  have hb := zip_typed hf.here.declared.slots ha
  unfold runLambda
  rw [if_neg (by simpa using hlen)]
  refine yields_fresh.bind fun _ u hu _ => ?_
  have hbody := (he w f.body (hf.child (by simp [Node.children]))).withBindings hb
  refine (hbody.later hu).outcome_bind (fun v u' hu' hv => ?_) ?_
  · exact gives_pure (hv.1.stored (Node.made_lambda hf.here.made)).result
  · rintro (e | x | ⟨l, v⟩) u' hu' hx
    · exact yields_signal fun _ _ => hx
    · exact yields_signal fun _ h => Backed.mono h hx
    · exact yields_fatal rfl

/-! ### Delegates -/

variable {h : Host} (he : Γ.Evaluates ev) (ha : Γ.Assumed ev.host)

include he

/-- What stands at an address of the store is called with what its signature asks for. -/
theorem dispatch_gives {sig : Signature} {addr : Nat} {hostCode : Nat → Eval Value}
    (hf : Γ.Backed w (.delegate sig addr)) (hv : List.Forall₂ (Γ.Has w) vs sig.params)
    (hh : ∀ id u, w.Extends u → Γ.delegate id = sig → Γ.Gives False u sig.ret (hostCode id)) :
    Γ.Gives False w sig.ret (Eval.store >>= fun st => match st.delegates[addr]? with
      | some (.closure f captures limit) => ev.callLambda f captures limit vs
      | some (.host id) => hostCode id
      | none => Eval.endless) := by
  refine yields_store.bind ?_
  rintro u _ hu ⟨rfl, hok⟩
  obtain ⟨b, hb, hs⟩ := hf.mono hu
  rw [hb]
  have hvu : List.Forall₂ (Γ.Has u) vs sig.params := hv.imp fun _ _ h => h.mono hu
  cases b with
  | closure f captures limit =>
    subst hs
    obtain ⟨ht, hc⟩ := hok.closures (Array.mem_of_getElem? hb)
    exact callLambda_gives he ht hc hvu
  | host id => exact hh id u hu hs

include ha

theorem callDelegate_calls {n : Nat} : Γ.Calls (callDelegate ev n) := by
  induction n with
  | zero =>
    intro w f args ps ret hf hv
    obtain rfl | ⟨addr, rfl⟩ := Value.fits_fn hf.fits
    · exact yields_throw
    · rw [callDelegate, if_neg (by simpa [Signature.arity] using hv.length_eq.symm)]
      exact dispatch_gives he hf.backed hv fun _ _ _ _ => yields_endless
  | succ n ih =>
    intro w f args ps ret hf hv
    obtain rfl | ⟨addr, rfl⟩ := Value.fits_fn hf.fits
    · exact yields_throw
    · rw [callDelegate, if_neg (by simpa [Signature.arity] using hv.length_eq.symm)]
      refine dispatch_gives he hf.backed hv fun id u hu hs => ?_
      have hvu : List.Forall₂ (Γ.Has u) args (Γ.delegate id).params := by
        rw [hs]
        exact hv.imp fun _ _ h => h.mono hu
      have htr := ha.delegate id hvu
      rw [hs] at htr
      exact onStore_gives ih htr

/-! ### Handles -/

theorem onHost_gives {run : Store → Routine} (hr : Γ.Trusted w t run) :
    Γ.Gives j w t (ev.onHost run) :=
  (onStore_gives (callDelegate_calls he ha) hr).weaken

theorem method_gives {m : Method} {receiver : Option Value} {T : Option Ty} {args : List Ty}
    (hu : Γ.uses (.method m T args)) (hr : Option.Rel (Γ.Has w) receiver T)
    (hv : List.Forall₂ (Γ.Has w) vs args) : Γ.Gives j w m.ret (ev.method m receiver vs) :=
  onHost_gives he ha (ha.handle hu w receiver vs hr hv)

theorem construct_gives {c : Constructor} (hu : Γ.uses (.construct c))
    (hv : List.Forall₂ (Γ.Has w) vs c.params) : Γ.Gives j w c.ty (ev.construct c vs) :=
  onHost_gives he ha (ha.handle hu w vs hv)

theorem get_gives {m : Member} {target : Option Value} {T : Option Ty} (hu : Γ.uses (.get m T))
    (ht : Option.Rel (Γ.Has w) target T) : Γ.Gives j w m.ty (ev.get m target) :=
  onHost_gives he ha (ha.handle hu w target ht)

theorem set_yields {m : Member} {target : Option Value} {T : Option Ty} (hu : Γ.uses (.set m T))
    (ht : Option.Rel (Γ.Has w) target T) (hv : Γ.Has w v m.ty) :
    Γ.Yields j w (fun _ _ => True) (ev.set m target v) :=
  (onHost_gives he ha (ha.handle hu w target v ht hv)).bind fun _ _ _ _ =>
    yields_pure fun _ _ => trivial

theorem getItem_gives {i : Indexer} {target : Value} {T : Ty} (hu : Γ.uses (.getItem i T))
    (ht : Γ.Has w target T) (hv : List.Forall₂ (Γ.Has w) vs i.params) :
    Γ.Gives j w i.item (ev.getItem i target vs) :=
  onHost_gives he ha (ha.handle hu w target vs ht hv)

theorem setItem_yields {i : Indexer} {target : Value} {T : Ty} (hu : Γ.uses (.setItem i T))
    (ht : Γ.Has w target T) (hvs : List.Forall₂ (Γ.Has w) vs i.params) (hv : Γ.Has w v i.item) :
    Γ.Yields j w (fun _ _ => True) (ev.setItem i target vs v) :=
  (onHost_gives he ha (ha.handle hu w target vs v ht hvs hv)).bind fun _ _ _ _ =>
    yields_pure fun _ _ => trivial

theorem invoke_gives {f : Value} {ps : List Ty} (hf : Γ.Has w f (.fn ps t))
    (hv : List.Forall₂ (Γ.Has w) vs ps) : Γ.Gives j w t (ev.invoke f vs) :=
  (callDelegate_calls he ha w f vs ps t hf hv).weaken

end Typing

end ExprTree
