import ExprTree.Proofs.LinkedImages
import ExprTree.Proofs.SlotRenaming

/-! Lambdas under other names. Where parameters and labels are exchanged one for one, for others of
the same name and type, nothing changes but the names inside the closures that are made. -/
namespace ExprTree

open scoped Function

def Param.renamed (σ : Nat → Nat) (p : Param) : Param := { p with id := σ p.id }

def Label.renamed (ρ : Nat → Nat) (l : Label) : Label := { l with id := ρ l.id }

/-- Exchanges all parameters and all labels. -/
def Rewriter.rename {τ : Type} (σ ρ : Nat → Nat) : Rewriter τ where
  variant n descend := match n with
    | .param p => return .param (p.renamed σ)
    | _ => descend
  label l := return l.renamed ρ

/-- What becomes of a constant or a parameter. -/
inductive Node.Renames (σ : Nat → Nat) : Node → Node → Prop where
  | constant (id : Nat) (v : Value) (t : Ty) : Renames σ (.constant id v t) (.constant id v t)
  | param {p : Param} (h : p.name.isSome) : Renames σ (.param p) (.param (p.renamed σ))

/-- Neither a quoted tree nor an extension, and its parameters and labels have names, by which
errors call them. -/
structure Node.Named (n : Node) : Prop where
  ordinary : n.isOrdinary = true
  param (p : Param) (h : n = .param p) : p.name.isSome
  target (l : Label) (h : l ∈ n.targets) : l.name.isSome

/-- The second item is the first one under other names. -/
abbrev Item.Renamed (σ ρ : Nat → Nat) : Item → Item → Prop :=
  Image (fun k l => l = k.renamed ρ) (Node.Renames σ) Node.Named

/-- The delegates are the same, or the second is the first one under other names. -/
inductive DelegateBody.Renamed (σ ρ : Nat → Nat) : DelegateBody → DelegateBody → Prop where
  | same (b : DelegateBody) : Renamed σ ρ b b
  | closure {f g : Lambda} (h : (Item.lambda f).Renamed σ ρ (.lambda g)) (captures : Slots)
    (limit : Option Nat) :
    Renamed σ ρ (.closure f captures limit) (.closure g (captures.renamed σ) limit)

/-- The states are the same but for the names of visible parameters and in delegates. -/
structure State.Renamed (σ ρ : Nat → Nat) (s t : State) : Prop where
  env : t.env = s.env.renamed σ
  handling : t.handling = s.handling
  steps : t.steps = s.steps
  limit : t.limit = s.limit
  store : s.store.Paired (DelegateBody.Renamed σ ρ) t.store

section

variable {σ ρ : Nat → Nat} {n m : Node} {k : Nat} {τ : Type}

/-! ### The rewrite -/

theorem Item.rename_exchange :
    Exchange (fun k l => l = k.renamed ρ) (Node.Renames σ) Node.Named where
  labelTy h := by
    rw [h]
    rfl
  ty h := by cases h <;> rfl
  ordinary h := h.ordinary

theorem Rewriter.rename_exchanges {fails : Prop} : (rename σ ρ : Rewriter τ).Exchanges k fails
    (fun k l => l = k.renamed ρ) (Node.Renames σ) Node.Named where
  only := .of_variant fun n d hn => by cases n <;> first | rfl | cases hn
  label l := Visit.gives_pure rfl
  atom {n} hn hP := by
    cases n <;> cases hn
    case constant id v t => exact Visit.gives_pure (.constant id v t)
    case param p => exact Visit.gives_pure (.param (hP.param p rfl))
  sameLabel {k l} h hs := by
    subst h
    have hid : k.id = ρ k.id := beq_iff_eq.mp hs
    simp only [Label.renamed, ← hid]
  same h hs := by
    cases h with
    | constant => rfl
    | @param p =>
      have hid : p.id = σ p.id := by simpa [Node.same, Node.identity, Param.renamed] using hs
      simp only [Param.renamed, ← hid]
  toExchange := Item.rename_exchange
  written h _ := by cases h <;> rfl
  param h := by
    cases h with
    | param => exact .inl rfl

theorem Node.Renames.alike (h : Node.Renames σ n m) : n.Alike m := by
  cases h <;> exact ⟨rfl, fun _ => rfl, fun _ => rfl⟩

/-- Parameters that differ still do when they are renamed. -/
theorem Build.checkUnique_renamed (hσ : σ.Injective) {ps : List Param}
    (h : checkUnique ps = .ok ()) : checkUnique (ps.map (·.renamed σ)) = .ok () := by
  suffices ∀ seen : List Nat, checkUnique.go seen ps = .ok () →
      checkUnique.go (seen.map σ) (ps.map (·.renamed σ)) = .ok () from this [] h
  clear h
  induction ps with
  | nil => exact fun _ h => h
  | cons p ps ih =>
    intro seen h
    have hseen : (seen.map σ).contains (p.renamed σ).id = seen.contains p.id := by
      simp [Param.renamed, List.contains_eq_mem, hσ.eq_iff]
    rw [checkUnique.go] at h
    rw [List.map_cons, checkUnique.go, hseen]
    cases hp : seen.contains p.id with
    | true =>
      rw [if_pos hp] at h
      cases h
    | false =>
      rw [if_neg (Bool.eq_false_iff.mp hp)] at h
      exact ih (p.id :: seen) h

/-- The rewrite succeeds. -/
theorem Rewriter.rename_gives (hσ : σ.Injective) {i : Item}
    (hi : i.All fun i => i.Made ∧ i.Older k ∧ ∀ n, i = .node n → n.Named) :
    ((rename σ ρ : Rewriter τ).visitItem i).Gives (k ≤ ·.2) False (i.Renamed σ ρ) := by
  refine (rename_exchanges.visitItem_gives hi fun i fresh out hm hout => ?_).mono fun j hj => hj.1.1
  have hretyped : Meets False i.Retyped out := by
    have hX : Item.Exchange (fun k l => l = k.renamed ρ) (Node.Renames σ) Node.Named :=
      Item.rename_exchange
    refine hout.retyped (fun _ _ => hX.labelTy) (fun i j h => ?_) (fun ps qs h hu => ?_) hm
    · exact h.1.retyped hX fun _ _ h => h.alike
    · have hps : qs = ps.map (·.renamed σ) := by
        clear hu
        induction h with
        | nil => rfl
        | @cons p q _ _ h _ ih =>
          obtain ⟨_, ⟨⟩, hA⟩ := h.1.of_atom rfl
          cases hA
          rw [ih, List.map_cons]
      rw [hps]
      exact Build.checkUnique_renamed hσ hu
  cases out with
  | error e => exact hretyped
  | ok j => trivial

/-! ### Both lambdas run beside each other -/

/-- A tree and itself under other names. -/
def Link.renamed (σ ρ : Nat → Nat) : Link where
  node n m := (Item.node n).Renamed σ ρ (.node m)
  slot i j := j = σ i
  label k l := l.id = ρ k.id
  env d e := e = d.renamed σ

theorem Param.names_renamed {p : Param} (h : p.name.isSome) :
    (Link.renamed σ ρ).Names p (p.renamed σ) := by
  obtain ⟨name, hname⟩ := Option.isSome_iff_exists.mp h
  exact ⟨rfl, rfl, rfl, by simp [Param.text, Param.renamed, hname]⟩

theorem Label.targets_renamed {l : Label} (h : l.name.isSome) :
    (Link.renamed σ ρ).Targets l (l.renamed ρ) := by
  obtain ⟨name, hname⟩ := Option.isSome_iff_exists.mp h
  exact ⟨rfl, rfl, by simp [Label.text, Label.renamed, hname]⟩

theorem Link.renamed_images (hσ : σ.Injective) (hρ : ρ.Injective) : (renamed σ ρ).Images
    (fun k l => l = k.renamed ρ) (Node.Renames σ) Node.Named where
  node h := h
  toExchange := Item.rename_exchange
  atom h _ := by cases h <;> rfl
  param h := by
    cases h with
    | param h => exact Param.names_renamed h
  target hn hk h := by
    subst h
    exact Label.targets_renamed (hn.target _ hk)
  lookup h hi := by
    rw [h, hi]
    exact Environment.lookup_renamed hσ
  label h hl := by
    rw [h, hl]
    exact hρ.eq_iff.symm

theorem Link.renamed_binds {bs cs : Slots} (h : (renamed σ ρ).Binds bs cs) : cs = bs.renamed σ := by
  induction h with
  | nil => rfl
  | cons h _ ih => rw [ih, Slots.renamed_cons, ← h.1, ← h.2]

theorem Link.renamed_lambdas (hσ : σ.Injective) (hρ : ρ.Injective) {f g : Lambda}
    (h : (Item.lambda f).Renamed σ ρ (.lambda g)) : (renamed σ ρ).Lambdas f g := by
  have hC := (renamed_images hσ hρ).covers
  obtain ⟨id, p, hp, hg, -⟩ := hC.overNode h rfl
  cases p with | lambda body ps => ?_
  cases hg
  exact ⟨rfl, rfl, hp.2.imp fun _ _ => hC.param, hC.node hp.1⟩

theorem Link.renamed_lawful (hσ : σ.Injective) (hρ : ρ.Injective) : (renamed σ ρ).Lawful where
  enter h hb := by
    rw [h, renamed_binds hb]
    exact Environment.push_defineAll_renamed hσ
  leave h _ _ := by
    rw [h]
    exact Environment.pop_renamed
  assign {d e i j} h hi v := by
    rw [h, hi, Environment.assign?_renamed hσ]
    cases d.assign? i v with
    | none => exact .none
    | some d => exact .some rfl
  label := (renamed_images hσ hρ).label
  lambda := renamed_lambdas hσ hρ
  plan {n m} h := by
    have hC := (renamed_images hσ hρ).covers
    by_cases hn : n.isAtomic = true
    · obtain ⟨_, ⟨⟩, hA⟩ := h.of_atom hn
      cases hA with
      | constant id v t => exact .pure rfl
      | param hp => exact Plan.linked_read hC (.slot (Param.names_renamed hp))
    · exact hC.plan h (Bool.eq_false_iff.mpr hn)

/-- The interpreter of a lambda beside that of the renamed one. -/
def Coupling.renamed (σ ρ : Nat → Nat) : Coupling Bool :=
  beside (.renamed σ ρ) (DelegateBody.Renamed σ ρ) fun l => ρ l.id = l.id

theorem Coupling.renamed_lawful (hσ : σ.Injective) (hρ : ρ.Injective) : (renamed σ ρ).Lawful := by
  refine beside_lawful (Link.renamed_lawful hσ hρ) (fun _ h => h.symm) .same ?_ ?_
  · rintro f g d _ l hf rfl
    rw [Environment.capture_renamed hσ]
    exact .closure hf d.capture l
  · rintro _ _ (_ | ⟨h, captures, limit⟩)
    · exact .inl rfl
    · exact .inr (.closure true h (Environment.ofCaptures_renamed hσ) limit)

end

/-- Rewriting exchanges the parameters and the labels of a lambda one for one, if all of them have
names and the lambda holds no quoted trees and no extensions. Called in states, with whatever limit,
that are the same but for the names, the two lambdas end alike after the same steps and the same
deeds. Their stores differ in the names inside delegates only. -/
theorem renaming_preserves (τ : Type) (σ ρ : Nat → Nat) (hσ : σ.Injective) (hρ : ρ.Injective)
    (k : Nat) (f : Lambda) (hmade : (Item.lambda f).All Item.Made)
    (hold : (Item.lambda f).All (Item.Older k))
    (hf : (Item.lambda f).All fun i => ∀ n, i = .node n → n.Named) (a : τ) (next : Nat)
    (hk : k ≤ next) :
    ∃ g t, (Rewriter.rename σ ρ).run (.lambda f) a next = (.ok (.lambda g), t) ∧
      (Item.lambda f).Renamed σ ρ (.lambda g) ∧
      ∀ host : Host, host.Opaque (DelegateBody.Renamed σ ρ) (fun l => ρ l.id = l.id) →
        ∀ depth args s t, s.Renamed σ ρ t → Twins Eq (State.Renamed σ ρ) Eq
          ((evaluator host depth).runLambda f args s) ((evaluator host depth).runLambda g args t)
          ((recorder host depth).lambda f args s) ((recorder host depth).lambda g args t) := by
  have hgives :
      ((Rewriter.rename σ ρ : Rewriter τ).visit (.lambda f)).Gives (k ≤ ·.2) False fun m =>
      (Item.lambda f).Renamed σ ρ (.node m) :=
        (Rewriter.rename_gives hσ (hmade.and (hold.and hf))).of_map
  rcases hrun : (Rewriter.rename σ ρ).run (.lambda f) a next with ⟨e | m, t⟩
  · exact (hgives (a, next) _ _ hk hrun).elim
  · have himage := (hgives (a, next) _ _ hk hrun).2
    obtain ⟨g, rfl⟩ : ∃ g, m = .lambda g := by
      have hkind := himage.kind rfl
      cases m <;> cases hkind
      exact ⟨_, rfl⟩
    refine ⟨g, t, rfl, himage, fun host hh depth args s t hs => ?_⟩
    have hC := Coupling.renamed_lawful hσ hρ
    have hstates : (Coupling.renamed σ ρ).States true s.env s t :=
      ⟨⟨hs.env, rfl, hs.handling, hs.limit, .inl hs.steps⟩, hs.store⟩
    have htwins := Recorder.lambda_coupled hC (coupled hC hh depth) (i := true) himage args hstates
    refine htwins.mono (fun _ _ h => h.1.symm) fun u v h => ?_
    exact ⟨h.env, h.handling, h.steps.resolve_right fun h => h.1, h.limit, h.store⟩

/-- A closure over a parameter leaves a label as the value of a jump. -/
theorem renamed_closure_returned :
    let host := Scripts.host {}
    let next : Nat → Nat := (· + 10)
    let p : Param := ⟨0, some "flag", .bool⟩
    let inner (id : Nat) (p : Param) : Lambda := .mk id none (.param p) [] .bool
    let l : Label := ⟨0, some "out", (inner 1 p).ty⟩
    let outer (id i j k : Nat) (p : Param) (l : Label) : Lambda := .mk id none
      (.label i l (some (.goto j .returnTo l (some (.lambda (inner k p))) .void))) [p] l.ty
    let f := outer 4 3 2 1 p l
    let g := outer 8 7 6 5 (p.renamed next) (l.renamed next)
    let s : State := .start none {}
    (∃ t, (Rewriter.rename next next).run (.lambda f) () 5 = (.ok (.lambda g), t)) ∧
      ∃ u v, (evaluator host 3).runLambda f [.bool true] s =
        .value (.delegate (inner 1 p).signature 0) u ∧
        (evaluator host 3).runLambda g [.bool true] s =
          .value (.delegate (inner 1 p).signature 0) v ∧
        u.Renamed next next v ∧
        u.store.delegates[0]? = some (.closure (inner 1 p) [(0, .bool true)] none) ∧
        v.store.delegates[0]? =
          some (.closure (inner 5 (p.renamed next)) [(10, .bool true)] none) := by
  intro host next p inner l outer f g s
  have hnext : next.Injective := fun _ _ h => Nat.add_right_cancel h
  let jump : Node := .goto 2 .returnTo l (some (.lambda (inner 1 p))) .void
  let body : Node := .label 3 l (some jump)
  have hall {P : Item → Prop} (hf : P (.lambda f)) (hbody : P (.node body)) (hjump : P (.node jump))
      (hinner : P (.lambda (inner 1 p))) (hp : P (.param p)) : (Item.lambda f).All P := by
    have hp : (Item.param p).All P := .mk hp nofun
    have hinner : (Item.lambda (inner 1 p)).All P := .mk hinner (List.forall_mem_singleton.mpr hp)
    have hjump : (Item.node jump).All P := .mk hjump (List.forall_mem_singleton.mpr hinner)
    have hbody : (Item.node body).All P := .mk hbody (List.forall_mem_singleton.mpr hjump)
    exact .mk hf (List.forall_mem_cons.mpr ⟨hbody, List.forall_mem_singleton.mpr hp⟩)
  have hmade : (Item.lambda f).All Item.Made := hall ⟨none, rfl⟩ rfl ⟨none, rfl⟩ ⟨none, rfl⟩ rfl
  have holder : (Item.lambda f).All (Item.Older 5) :=
    hall (.of_identity rfl (by decide)) (.of_identity rfl (by decide))
      (.of_identity rfl (by decide))
      (.of_identity rfl (by decide)) nofun
  have hnamed : (Item.lambda f).All fun i => ∀ n, i = .node n → n.Named := by
    refine hall ?_ ?_ ?_ ?_ ?_ <;> rintro _ ⟨⟩
    · exact ⟨rfl, nofun, nofun⟩
    · exact ⟨rfl, nofun, List.forall_mem_singleton.mpr rfl⟩
    · exact ⟨rfl, nofun, List.forall_mem_singleton.mpr rfl⟩
    · exact ⟨rfl, nofun, nofun⟩
    · exact ⟨rfl, by rintro _ ⟨⟩; rfl, nofun⟩
  obtain ⟨g', t, hrun, -, htwins⟩ :=
    renaming_preserves Unit next next hnext hnext 5 f hmade holder hnamed () 5 (Nat.le_refl 5)
  have hrewritten : (Rewriter.rename next next).run (.lambda f) () 5 = (.ok (.lambda g), (), 9) :=
    rfl
  have hg : g' = g := by
    have h := hrun.symm.trans hrewritten
    cases h
    rfl
  subst hg
  have hs : s.Renamed next next s := ⟨rfl, rfl, rfl, rfl, .refl .same s.store⟩
  have hd := htwins host Host.scripts_nil_opaque 3 [.bool true] s s hs
  have hu :
      ∃ u, (evaluator host 3).runLambda f [.bool true] s =
        .value (.delegate (inner 1 p).signature 0) u ∧
      u.store.delegates[0]? = some (.closure (inner 1 p) [(0, .bool true)] none) := ⟨_, rfl, rfl⟩
  have hv :
      ∃ v, (evaluator host 3).runLambda g [.bool true] s =
        .value (.delegate (inner 1 p).signature 0) v ∧
      v.store.delegates[0]? = some (.closure (inner 5 (p.renamed next)) [(10, .bool true)] none) :=
        ⟨_, rfl, rfl⟩
  obtain ⟨u, hu, hu'⟩ := hu
  obtain ⟨v, hv, hv'⟩ := hv
  have ho := hd.outcome
  rw [hu, hv] at ho
  cases ho with | value _ huv => ?_
  exact ⟨⟨_, hrewritten⟩, u, v, hu, hv, huv, hu', hv'⟩

end ExprTree
