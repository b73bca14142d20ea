import ExprTree.Proofs.PlainNodes

/-! The nodes that catch jumps and exceptions. Their parts may allow more signals than they do: what
is caught does not leave. -/
namespace ExprTree.Evaluator

open Contract

variable {ev : Evaluator} {C : Contract} {P P' : Signal → Prop} {n : Node} {ns all : List Node}

/-! ### Sequences and loops -/

theorem runSequence_cons {k : Nat} {last : Value} :
    ev.runSequence all (k + 1) (n :: ns) last = (ev.eval n).outcome >>= fun
      | .ok v => ev.runSequence all k ns v
      | .error (.jump l v) => (match afterLabel? l all with
        | some rest => ev.runSequence all k rest v
        | none => Eval.signal (.jump l v))
      | .error x => Eval.signal x := by
  funext s
  change _ = Eval.bind (ev.eval n).outcome _ s
  simp only [runSequence, Eval.bind, Eval.outcome]
  rcases ev.eval n s with ⟨v, t⟩ | ⟨x, t⟩ | _
  · rfl
  · rcases x with e | x | ⟨l, v⟩
    · rfl
    · rfl
    · simp only
      cases afterLabel? l all <;> rfl
  · rfl

theorem runLoop_succ {k : Nat} {b c : Option Label} :
    ev.runLoop n b c (k + 1) = (ev.eval n).outcome >>= fun
      | .ok _ => ev.runLoop n b c k
      | .error (.jump l v) =>
        if b == some l then pure (l.ty.result v)
        else if c == some l then ev.runLoop n b c k
        else Eval.signal (.jump l v)
      | .error x => Eval.signal x := by
  funext s
  change _ = Eval.bind (ev.eval n).outcome _ s
  simp only [runLoop, Eval.bind, Eval.outcome]
  rcases ev.eval n s with ⟨v, t⟩ | ⟨x, t⟩ | _
  · rfl
  · rcases x with e | x | ⟨l, v⟩
    · rfl
    · rfl
    · simp only
      split
      · rfl
      · split <;> rfl
  · rfl

theorem beq_iff_id {k l : Label} : (some k == some l) ↔ k.id = l.id := by
  change (k.id == l.id) = true ↔ _
  simp

theorem afterLabel?_cons {l : Label} (h : n.kind ≠ .label) :
    afterLabel? l (n :: ns) = afterLabel? l ns := by
  cases n <;> first | rfl | exact absurd rfl h

theorem mem_of_afterLabel? {l : Label} {rest : List Node} (h : afterLabel? l all = some rest) :
    ∀ n ∈ rest, n ∈ all := by
  induction all with
  | nil => simp [afterLabel?] at h
  | cons n ns ih =>
    have htail (h : afterLabel? l ns = some rest) : ∀ m ∈ rest, m ∈ n :: ns :=
      fun m hm => List.mem_cons_of_mem _ (ih h m hm)
    cases n with
    | label id k x =>
      simp only [afterLabel?] at h
      split at h
      · cases h
        exact fun m hm => List.mem_cons_of_mem _ hm
      · exact htail h
    | _ => exact htail h

theorem afterLabel?_none {l : Label} (h : afterLabel? l all = none) : l.symbol ∉ labelsOf all := by
  induction all with
  | nil => simp [labelsOf]
  | cons n ns ih =>
    cases n with
    | label id k x =>
      simp only [afterLabel?] at h
      split at h
      · cases h
      · rename_i hk
        have hid : l.id ≠ k.id := fun he => hk (by simp [BEq.beq, he])
        have := ih h
        simp_all [labelsOf, Label.symbol]
    | _ => exact ih h

/-- The sequence catches the jumps to its labels. -/
theorem runSequence_keeps {k : Nat} {last : Value} (hn : ∀ n ∈ all, C.Keeps P' (ev.eval n))
    (hx : ∀ x, P' x → (∀ l v, x = .jump l v → l.symbol ∉ labelsOf all) → P x)
    (hs : ∀ n ∈ ns, n ∈ all) : C.Keeps P (ev.runSequence all k ns last) := by
  induction k generalizing ns last with
  | zero =>
    cases ns with
    | nil => exact keeps_pure
    | cons n ns => exact ensures_endless
  | succ k ih =>
    cases ns with
    | nil => exact keeps_pure
    | cons n ns =>
      rw [runSequence_cons]
      refine (hn n (hs n (by simp))).outcome_bind ?_ ?_
      · exact fun v => ih fun m hm => hs m (List.mem_cons_of_mem _ hm)
      · rintro (e | x | ⟨l, v⟩) hp
        · exact ensures_signal (hx _ hp nofun)
        · exact ensures_signal (hx _ hp nofun)
        · simp only
          split
          · rename_i rest hl
            exact ih (mem_of_afterLabel? hl)
          · rename_i hl
            refine ensures_signal (hx _ hp ?_)
            rintro _ _ ⟨⟩
            exact afterLabel?_none hl

/-- The loop catches the jumps to its own labels. -/
theorem runLoop_keeps {k : Nat} {b c : Option Label} (hn : C.Keeps P' (ev.eval n))
    (hx : ∀ x, P' x →
      (∀ l v, x = .jump l v → l.symbol ∉ (b.toList ++ c.toList).map Label.symbol) → P x) :
    C.Keeps P (ev.runLoop n b c k) := by
  have hne {o : Option Label} {l k : Label} (h : ¬(o == some l)) (ho : o = some k) :
      k.symbol ≠ l.symbol := by
    subst ho
    intro he
    exact h (beq_iff_id.mpr (by simpa [Label.symbol] using he))
  induction k with
  | zero => exact ensures_endless
  | succ k ih =>
    rw [runLoop_succ]
    refine hn.outcome_bind (fun _ => ih) ?_
    rintro (e | x | ⟨l, v⟩) hp
    · exact ensures_signal (hx _ hp nofun)
    · exact ensures_signal (hx _ hp nofun)
    · simp only
      split
      · exact keeps_pure
      · split
        · exact ih
        · rename_i hb hc
          refine ensures_signal (hx _ hp ?_)
          rintro _ _ ⟨⟩
          simp only [List.map_append, List.mem_append, List.mem_map, Option.mem_toList, not_or,
            not_exists, not_and]
          exact ⟨fun k hk => hne hb hk, fun k hk => hne hc hk⟩

/-- The label catches the jumps to itself. -/
theorem evalLabel_keeps {target : Label} {fallback : Option Node}
    (hn : ∀ n ∈ fallback, C.Keeps P' (ev.eval n))
    (hx : ∀ x, P' x → (∀ l v, x = .jump l v → l.symbol ≠ target.symbol) → P x) :
    C.Keeps P (ev.evalLabel target fallback) := by
  cases fallback with
  | none => exact keeps_pure
  | some n =>
    refine (hn n rfl).outcome_bind (fun v => ensures_pure trivial) ?_
    rintro (e | x | ⟨l, v⟩) hp
    · exact ensures_signal (hx _ hp nofun)
    · exact ensures_signal (hx _ hp nofun)
    · simp only
      split
      · exact keeps_pure
      · rename_i hl
        refine ensures_signal (hx _ hp ?_)
        rintro _ _ ⟨⟩ he
        exact hl (beq_iff_id.mpr (by simpa [Label.symbol] using he))

/-! ### Guarded bodies -/

/-- The frame of a handler: the exception, if it has a variable for it. -/
def bindings (h : CatchClause) (exception : Value) : Slots :=
  (h.var.map fun p => (p.id, exception)).toList

/-- The filter and the body of the clause keep the contract in the frame of the handler. -/
structure ClauseKeeps (ev : Evaluator) (C : Contract) (P : Signal → Prop)
    (h : CatchClause) : Prop where
  filter (x : Value) : ∀ f ∈ h.filter, C.Keeps P ((ev.eval f).withBindings (bindings h x))
  body (x : Value) : C.Keeps P (((ev.eval h.body).withBindings (bindings h x)).withHandling x)

theorem accepts_keeps {h : CatchClause} {x : Value} (hc : ev.ClauseKeeps C P h) :
    C.Keeps P (ev.accepts h (bindings h x)) := by
  unfold accepts
  split
  · exact keeps_pure
  · rename_i f hf
    refine (hc.filter x f hf).outcome_bind (fun v => ?_) ?_
    · cases v <;> exact keeps_pure
    · rintro (e | y | ⟨l, v⟩) hp
      · exact ensures_signal hp
      · exact keeps_pure
      · exact ensures_signal hp

theorem handle_keeps {x : Value} {fault : Option Node} {handlers : List CatchClause}
    (hx : P (.thrown x)) (hf : ∀ n ∈ fault, C.Keeps P (ev.eval n))
    (hc : ∀ h ∈ handlers, ev.ClauseKeeps C P h) : C.Keeps P (ev.handle x fault handlers) := by
  induction handlers with
  | nil =>
    cases fault with
    | none => exact ensures_signal hx
    | some n => exact (hf n rfl).bind fun _ => ensures_signal hx
  | cons h hs ih =>
    have hrest := ih fun k hk => hc k (List.mem_cons_of_mem _ hk)
    have hh := hc h (by simp)
    exact keeps_ite ((accepts_keeps hh).bind fun b => keeps_ite (hh.body x) hrest) hrest

/-- The finalizer runs after whatever came before it, and either may have the last word. -/
theorem evalGuarded_keeps {handlers : List CatchClause} {fin fault : Option Node}
    (hP : ∀ x, P (.thrown x)) (hb : C.Keeps P (ev.eval n))
    (hc : ∀ h ∈ handlers, ev.ClauseKeeps C P h)
    (hfin : ∀ n ∈ fin, C.Keeps P (ev.eval n)) (hf : ∀ n ∈ fault, C.Keeps P (ev.eval n)) :
    C.Keeps P (ev.evalGuarded n handlers fin fault) := by
  refine Keeps.outcome_bind (P := P) ?_ (fun v => ?_) fun y hy => ?_
  · refine hb.outcome_bind (fun v => keeps_pure) ?_
    rintro (e | x | ⟨l, v⟩) hp
    · exact ensures_signal hp
    · exact handle_keeps (hP x) hf hc
    · exact ensures_signal hp
  · cases fin with
    | none => exact keeps_pure
    | some f => exact (hfin f rfl).bind fun _ => keeps_pure
  · cases fin with
    | none => exact ensures_signal hy
    | some f => exact (hfin f rfl).bind fun _ => ensures_signal hy

end ExprTree.Evaluator
