import ExprTree.Proofs.HostCode

/-! Host code to which delegates are opaque: it cannot tell stores apart that differ only in what
delegates are made of. -/
namespace ExprTree

variable {α : Type} {D : DelegateBody → DelegateBody → Prop} {J : Label → Prop}

/-- The stores are the same but for what delegates are made of, which is related by `D`. -/
structure Store.Paired (D : DelegateBody → DelegateBody → Prop) (s t : Store) : Prop where
  bare : t.bare = s.bare
  size : t.delegates.size = s.delegates.size
  delegates (i : Nat) : Option.Rel D s.delegates[i]? t.delegates[i]?

/-- If the signal is a jump, it is to one of the labels. -/
def Signal.Within (J : Label → Prop) (x : Signal) : Prop := ∀ l v, x = .jump l v → J l

/-- The routines invoke the same delegates, from stores related by `S`, and finish with the same
result. -/
inductive Routine.Pairs (S : Store → Store → Prop) (J : Label → Prop) :
    Routine → Routine → Prop where
  | finish (r : Except Signal Value) {s t : Store} (h : S s t)
    (hr : ∀ x, r = .error x → x.Within J) :
    Pairs S J (.finish r s) (.finish r t)
  | invoke (f : Value) (args : List Value) {s t : Store}
    {k k' : Except Signal Value → Store → Routine} (h : S s t)
    (hk : ∀ r u v, (∀ x, r = .error x → x.Within J) → S u v → Pairs S J (k r u) (k' r v)) :
    Pairs S J (.invoke f args s k) (.invoke f args t k')

/-- The code does not tell stores apart that are related by `S`. -/
def Routine.Opaque (S : Store → Store → Prop) (J : Label → Prop) (run : Store → Routine) : Prop :=
  ∀ s t, S s t → (run s).Pairs S J (run t)

/-- No code of the host sees what delegates are made of, nor jumps but to labels of `J`. -/
def Host.Opaque (h : Host) (D : DelegateBody → DelegateBody → Prop) (J : Label → Prop) : Prop :=
  h.Each (Routine.Opaque (Store.Paired D) J)

/-- A change that sees no delegates gives the same in both stores and leaves them related. -/
def Store.Indistinct (S : Store → Store → Prop) : Prop :=
  ∀ {α : Type} {g : Store → α × Store} {s t : Store}, S s t → Oblivious g →
    (g t).1 = (g s).1 ∧ S (g s).2 (g t).2

namespace Store.Paired

variable {s t : Store}

/-- All but the delegates is the same. -/
theorem eq_delegates (h : s.Paired D t) : t = { s with delegates := t.delegates } := by
  have hb := h.bare
  cases s
  cases t
  simp_all [Store.bare]

theorem change : Indistinct (Store.Paired D) := by
  intro α g s t h hg
  have ht : g t = ((g s).1, { (g s).2 with delegates := t.delegates }) :=
    (congrArg g h.eq_delegates).trans (hg s t.delegates)
  rw [ht]
  refine ⟨rfl, rfl, ?_, ?_⟩
  · rw [hg.delegates s]
    exact h.size
  · rw [hg.delegates s]
    exact h.delegates

/-- A new delegate has the same address. -/
theorem newDelegate {b b' : DelegateBody} (h : s.Paired D t) (sig : Signature) (hb : D b b') :
    (t.newDelegate sig b').1 = (s.newDelegate sig b).1 ∧
      (s.newDelegate sig b).2.Paired D (t.newDelegate sig b').2 := by
  refine ⟨by simp [Store.newDelegate, h.size], h.bare,
    by simp [Store.newDelegate, h.size], fun i => ?_⟩
  simp only [Store.newDelegate, Array.getElem?_push, h.size]
  split
  · exact .some hb
  · exact h.delegates i

theorem refl (hD : ∀ b, D b b) (s : Store) : s.Paired D s where
  bare := rfl
  size := rfl
  delegates i := by
    cases s.delegates[i]? with
    | none => exact .none
    | some b => exact .some (hD b)

theorem eq (h : s.Paired D t) (hD : ∀ b b', D b b' → b' = b) : t = s := by
  have hd : t.delegates = s.delegates := by
    refine Array.ext_getElem? fun i => ?_
    have hi := h.delegates i
    generalize s.delegates[i]? = b, t.delegates[i]? = b' at hi ⊢
    cases hi with
    | none => rfl
    | some hb => rw [hD _ _ hb]
  rw [h.eq_delegates, hd]

theorem eq_iff : s.Paired Eq t ↔ t = s :=
  ⟨fun h => h.eq fun _ _ => Eq.symm, fun h => h ▸ refl (fun _ => rfl) s⟩

end Store.Paired

namespace Routine

variable {S : Store → Store → Prop}

theorem opaque_builtIn (hS : Store.Indistinct S) {run : Store → Routine}
    (hb : BuiltIn run) : Opaque S J run := by
  cases hb with
  | @finish α g r hg he hr =>
    intro s t h
    obtain ⟨hv, hs⟩ := hS h hg
    have hJ : Ordinary (·.Within J) := ⟨fun _ => nofun, fun _ => nofun⟩
    dsimp only
    rw [hv]
    exact .finish _ hs fun x hx => hr _ hJ _ x hx

/-- What is given the same store does the same. -/
theorem opaque_of_trusted (hS : ∀ s t, S s t ↔ t = s) {run : Store → Routine}
    (h : Trusted (fun _ => True) (·.Within J) run) : Opaque S J run := by
  intro s t hst
  obtain rfl := (hS s t).mp hst
  have hr := h t trivial
  generalize run t = r at hr
  induction r with
  | finish r s => exact .finish r ((hS s s).mpr rfl) hr.2
  | invoke f args s k ih =>
    refine .invoke f args ((hS s s).mpr rfl) fun r u v hx huv => ?_
    obtain rfl := (hS u v).mp huv
    exact ih r v (hr.2 r v trivial hx)

theorem opaque_same (hS : ∀ s t, S s t ↔ t = s) {run : Store → Routine} :
    Opaque S (fun _ => True) run :=
  opaque_of_trusted hS fun _ _ => keeps_of_all (fun _ => trivial) fun _ _ _ _ => trivial

end Routine

namespace Host

variable {h : Host}

theorem opaque_same : h.Opaque Eq fun _ => True :=
  fun _ _ => Routine.opaque_same fun _ _ => Store.Paired.eq_iff

/-- What is built in sees no delegates either. -/
theorem Opaque.routine (hh : h.Opaque D J) (c : HandleCall) :
    Routine.Opaque (Store.Paired D) J (c.routine h) :=
  Each.routine hh (fun _ => Routine.opaque_builtIn Store.Paired.change) c

theorem scripts_nil_opaque : (Scripts.host {}).Opaque D J :=
  scripts_nil fun _ _ h => .finish _ h nofun

end Host

end ExprTree
