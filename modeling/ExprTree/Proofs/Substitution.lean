import ExprTree.Proofs.Capture
import ExprTree.Proofs.LinkedImages

/-! A constant in the place of a parameter that has its value. A tree that is rewritten so runs as
before; one that binds the parameter anew or assigns it is not rewritten. -/
namespace ExprTree

open scoped Function

/-- Replaces the parameter by the node, and keeps every other parameter. -/
def Rewriter.substitution {σ : Type} (p : Param) (c : Node) : Rewriter σ where
  variant n descend := match n with
    | .param q => if q.id = p.id then return c else descend
    | _ => descend

/-- What becomes of a constant or a parameter. -/
inductive Node.Substitutes (p : Param) (c : Node) : Node → Node → Prop where
  | replaced : Substitutes p c (.param p) c
  | kept {n : Node} (h : ∀ q, n = .param q → q.id ≠ p.id) : Substitutes p c n n

/-- The parameter may be replaced in the node, where its id is that of no other. -/
structure Node.Substitutable (p : Param) (n : Node) : Prop where
  ordinary : n.isOrdinary = true
  noLambda : n.kind ≠ .lambda
  own (q : Param) (h : n = .param q) (hq : q.id = p.id) : q = p

/-- The item binds the slot anew or assigns it. -/
def Item.Sets (id : Nat) : Item → Prop
  | .node n => (∃ q ∈ n.parts.params, q.id = id) ∨ ∃ q, n.written? = some (.param q) ∧ q.id = id
  | .catchClause h => ∃ q ∈ h.var, q.id = id
  | _ => False

/-- Replacing the parameter by the node. -/
abbrev Item.Substituted (p : Param) (c : Node) : Item → Item → Prop :=
  Image (fun k l => l = k) (Node.Substitutes p c) (Node.Substitutable p)

section

variable {p : Param} {c n : Node} {v : Value} {id k : Nat}

theorem Build.eq_of_constantTyped {t : Ty} (h : constantTyped id v t = .ok c) :
    c = .constant id v t := by
  simp only [constantTyped, bind_ok, pure_ok] at h
  obtain ⟨-, -, rfl⟩ := h
  rfl

theorem Item.substitution_exchange :
    Exchange (fun k l => l = k) (Node.Substitutes p (.constant id v p.ty))
      (Node.Substitutable p) where
  labelTy h := congrArg Label.ty h
  ty h := by
    cases h with
    | replaced => rfl
    | kept => rfl
  ordinary h := h.ordinary

theorem Rewriter.substitution_exchanges {σ : Type} :
    (substitution p (.constant id v p.ty) : Rewriter σ).Exchanges k
    True (fun k l => l = k) (Node.Substitutes p (.constant id v p.ty)) (Node.Substitutable p) where
  only := .of_variant fun n d hn => by cases n <;> first | rfl | cases hn
  label l := Visit.gives_pure rfl
  atom {n} hn hP := by
    cases n <;> cases hn
    case constant => exact Visit.gives_pure (.kept nofun)
    case param q =>
      by_cases hq : q.id = p.id
      · obtain rfl := hP.own q rfl hq
        simp only [substitution, if_true]
        exact Visit.gives_pure .replaced
      · simp only [substitution, if_neg hq]
        exact Visit.gives_pure (.kept (by rintro _ ⟨⟩; exact hq))
  sameLabel h _ := h
  same h hs := by
    cases h with
    | replaced => cases hs
    | kept => rfl
  toExchange := Item.substitution_exchange
  written h hm := by
    cases h with
    | replaced => cases hm
    | kept => rfl
  param _ := .inr trivial

theorem Rewriter.substitution_gives {σ : Type} {i : Item}
    (hi : i.All fun i => i.Made ∧ i.Older k ∧ ∀ n, i = .node n → n.Substitutable p) :
    ((substitution p (.constant id v p.ty) : Rewriter σ).visitItem i).Gives (k ≤ ·.2) True fun j =>
      i.Substituted p (.constant id v p.ty) j ∧
        i.All ((substitution p (.constant id v p.ty) : Rewriter σ).Visited (k ≤ ·.2)) := by
  have hupdate (i : Item) (fresh : Nat) (out : Build.Result Item) :
      Meets True (fun _ => True) out := by
    cases out <;> trivial
  exact (substitution_exchanges.visitItem_gives hi fun i fresh out _ _ => hupdate i fresh out).mono
    fun j hj => ⟨hj.1.1, hj.2⟩

/-! ### Trees that set the parameter -/

/-- Neither a binding nor a target may be a constant. -/
theorem Item.Substituted.not_sets {i j : Item}
    (h : i.Substituted p (.constant id v p.ty) j) : ¬i.Sets p.id := by
  have hparam {q : Param} {m : Node}
      (h : (Item.param q).Substituted p (.constant id v p.ty) (.node m))
      (hm : m.kind = .parameter) : q.id ≠ p.id := by
    obtain ⟨_, ⟨⟩, hA⟩ := h.of_atom rfl
    cases hA with
    | replaced => cases hm
    | kept hne => exact hne q rfl
  cases h with
  | @atom n m hn h => cases n <;> cases hn <;> simp [Sets, Node.parts, Parts.params, Node.written?]
  | compound hi h hS =>
    cases h.mono hS with
    | @node n parts id hp hw =>
      rintro (⟨q, hq, hid⟩ | ⟨q, hq, hid⟩)
      · have hne := hp.params.imp fun q q' h => And.intro (hparam (q := q) h rfl) h
        exact ((List.forall₂_and_left _ _).mp hne).1 q hq hid
      · have hx := Node.written_over id hp
        generalize (n.over id parts).written? = y at hw hx
        rw [hq] at hw hx
        cases hw with | some hkind => ?_
        cases hx with | some h => ?_
        exact hparam h hkind hid
    | catchClause id hv hf hb =>
      rintro ⟨q, hq, hid⟩
      have hne := option_rel_mono hv fun q q' h => And.intro (hparam (q := q) h rfl) h
      exact (option_rel_and_left.mp hne).1 q hq hid
    | _ => exact fun h => h

/-! ### Both trees run beside each other -/

/-- A tree and what replacing the parameter makes of it, where the parameter has the value. -/
def Link.substitution (p : Param) (v : Value) (c : Node) : Link where
  node n m := (Item.node n).Substituted p c (.node m)
  slot i j := j = i ∧ i ≠ p.id
  label := Eq
  env d e := e = d ∧ d.lookup p.id = some v

theorem Link.substitution_images :
    (substitution p v (.constant id v p.ty)).Images (fun k l => l = k)
    (Node.Substitutes p (.constant id v p.ty)) (Node.Substitutable p) where
  node h := h
  toExchange := Item.substitution_exchange
  atom h hn := by
    cases h with
    | replaced => rfl
    | kept => exact hn
  param {q q'} h := by
    generalize hm : Node.param q' = m at h
    cases h with
    | replaced => cases hm
    | kept hne =>
      cases hm
      exact ⟨⟨rfl, hne _ rfl⟩, rfl, rfl, rfl⟩
  target _ _ h := by
    obtain rfl := h
    exact ⟨rfl, rfl, rfl⟩
  lookup h hi := by rw [h.1, hi.1]
  label h hl := by
    obtain rfl := h
    obtain rfl := hl
    rfl

theorem Link.substitution_binds {bs cs : Slots} (h : (substitution p v c).Binds bs cs) :
    cs = bs ∧ p.id ∉ bs.ids := by
  induction h with
  | nil => exact ⟨rfl, nofun⟩
  | cons h _ ih =>
    obtain ⟨⟨hi, hne⟩, hv⟩ := h
    obtain ⟨rfl, hbs⟩ := ih
    exact ⟨by rw [Prod.ext hi hv], List.not_mem_cons_of_ne_of_not_mem (Ne.symm hne) hbs⟩

/-- The constant is what is read of the parameter. -/
theorem Link.substitution_atom {m : Node} (hn : n.isAtomic = true)
    (h : Node.Substitutes p (.constant id v p.ty) n m) :
    n.plan.Linked (substitution p v (.constant id v p.ty)) Eq m.plan := by
  cases h with
  | replaced =>
    refine .peek fun w w' hw => ?_
    rw [hw.env.2]
    exact .pure rfl
  | kept h =>
    cases n <;> cases hn
    case kept.constant.refl => exact .pure rfl
    case kept.param.refl q =>
      exact Plan.linked_read substitution_images.covers (.slot ⟨⟨rfl, h q rfl⟩, rfl, rfl, rfl⟩)

theorem Link.substitution_lawful : (substitution p v (.constant id v p.ty)).Lawful where
  enter h hb := by
    obtain ⟨rfl, hv⟩ := h
    obtain ⟨rfl, hp⟩ := substitution_binds hb
    exact ⟨rfl, (Environment.lookup_push_defineAll hp).trans hv⟩
  leave h hb hs := by
    obtain ⟨rfl, hv⟩ := h
    obtain ⟨-, hp⟩ := substitution_binds hb
    exact ⟨rfl, (Environment.lookup_pop hs hp).trans hv⟩
  assign {d e i j} h hi w := by
    obtain ⟨rfl, hv⟩ := h
    obtain ⟨rfl, hne⟩ := hi
    cases hd : e.assign? j w with
    | none => exact .none
    | some d => exact .some ⟨rfl, (Environment.lookup_assign? hd hne).trans hv⟩
  label := substitution_images.label
  lambda h := by
    obtain ⟨hP, -⟩ := h.of_over (by rintro _ ⟨⟩; rfl)
    exact absurd rfl (hP _ rfl).noLambda
  plan {n m} h := by
    by_cases hn : n.isAtomic = true
    · obtain ⟨_, ⟨⟩, hA⟩ := h.of_atom hn
      exact substitution_atom hn hA
    · exact substitution_images.covers.plan h (Bool.eq_false_iff.mpr hn)

/-- The interpreter of the tree beside that of the rewritten one; what they call is the same. -/
def Coupling.substitution (p : Param) (v : Value) (c : Node) : Coupling Bool :=
  beside (.substitution p v c) Eq fun _ => True

theorem Coupling.substitution_lawful : (substitution p v (.constant id v p.ty)).Lawful := by
  refine beside_lawful Link.substitution_lawful (fun _ _ => rfl) (fun _ => rfl) ?_ fun _ _ h =>
    .inl h.symm
  intro f g d e l hf _
  obtain ⟨hP, -⟩ := hf.of_over (by rintro _ ⟨⟩; rfl)
  exact absurd rfl (hP _ rfl).noLambda

/-- Corresponding states and signals are the same. -/
theorem Coupling.eq_of_substitution {e : Environment} {o o' : Outcome Value} {tr tr' : Trace}
    (h : (substitution p v c).Runs true e Eq o o' tr tr') : o' = o ∧ tr'.deeds = tr.deeds := by
  have hstate {s t : State} (h : (substitution p v c).States true e s t) : t = s := by
    obtain ⟨⟨⟨henv, -⟩, -, hhandling, hlimit, hsteps⟩, hstore⟩ := h
    have hsteps := hsteps.resolve_right fun h => h.1
    have hstore : t.store = s.store := Store.Paired.eq_iff.mp hstore
    cases s
    cases t
    simp_all
  obtain ⟨ho, hd⟩ := h
  refine ⟨?_, hd⟩
  cases ho with
  | value h hs => rw [h, hstate hs]
  | signal h hs =>
    rw [hstate hs]
    cases h with
    | fatal | thrown => rfl
    | jump hl =>
      obtain rfl := hl.label
      rfl
  | endless => rfl

/-- Replacing the parameter by a constant of its value changes no run. -/
theorem Item.Substituted.eval {m : Node}
    (h : (Item.node n).Substituted p (.constant id v p.ty) (.node m)) (host : Host) (depth : Nat)
    {s : State} (hs : s.env.lookup p.id = some v) :
    eval host depth m s = eval host depth n s ∧
      (trace host depth m s).deeds = (trace host depth n s).deeds := by
  have hR : Recorder.Coupled (Coupling.substitution p v (.constant id v p.ty)) (recorder host depth)
    (recorder host depth) := coupled Coupling.substitution_lawful host.opaque_same depth
  have hstates : (Coupling.substitution p v (.constant id v p.ty)).States true s.env s s :=
    ⟨⟨⟨rfl, hs⟩, rfl, rfl, rfl, .inl rfl⟩, .refl (fun _ => rfl) s.store⟩
  exact Coupling.eq_of_substitution (hR.eval (i := true) (n := n) (m := m) h hstates)

end

/-- Where a parameter has a value, a tree without lambdas, quoted trees and extensions runs as the
one in which a constant of the value stands for the parameter: to the same outcome and state, and
with the same deeds on the way. A tree that somewhere binds the parameter anew or assigns it is not
rewritten. -/
theorem substitution_transparent (σ : Type) (p : Param) (v : Value) (id k : Nat) (c n : Node)
    (hc : Build.constantTyped id v p.ty = .ok c) (hmade : (Item.node n).All Item.Made)
    (hold : (Item.node n).All (Item.Older k))
    (hn : (Item.node n).All fun i => ∀ m, i = .node m → m.Substitutable p) :
    (∀ (a : σ) next m t, k ≤ next → (Rewriter.substitution p c).run n a next = (.ok m, t) →
      ∀ host depth s, s.env.lookup p.id = some v → eval host depth m s = eval host depth n s ∧
        (trace host depth m s).deeds = (trace host depth n s).deeds) ∧
    (¬(Item.node n).All (fun i => ¬i.Sets p.id) → ∀ (a : σ) next, k ≤ next →
      ∃ e t, (Rewriter.substitution p c).run n a next = (.error e, t)) := by
  obtain rfl := Build.eq_of_constantTyped hc
  have hall := hmade.and (hold.and hn)
  let r : Rewriter σ := .substitution p (.constant id v p.ty)
  have hgives {i : Item}
      (hi : i.All fun i => i.Made ∧ i.Older k ∧ ∀ m, i = .node m → m.Substitutable p) :
      (r.visitItem i).Gives (k ≤ ·.2) True fun j =>
        i.Substituted p (.constant id v p.ty) j ∧ i.All (r.Visited (k ≤ ·.2)) :=
          Rewriter.substitution_gives hi
  constructor
  · intro a next m t hk hrun host depth s hs
    exact ((hgives hall).of_map (a, next) _ _ hk hrun).2.1.eval host depth hs
  · intro hsets a next hk
    rcases hrun : r.run n a next with ⟨e | m, t⟩
    · exact ⟨e, t, rfl⟩
    · have hvisited := ((hgives hall).of_map (a, next) _ _ hk hrun).2.2
      refine absurd ((hvisited.and hall.self).mono ?_) hsets
      rintro i ⟨⟨s, j, t, hs, hj⟩, hi⟩
      exact (hgives hi s _ _ hs hj).2.1.not_sets

/-- A parameter is read where it has a value, and written where it has to stay. -/
theorem flag_replaced :
    let p : Param := ⟨0, some "flag", .bool⟩
    let q : Param := ⟨1, none, .bool⟩
    let c : Node := .constant 2 (.bool true) .bool
    let copy (id : Nat) (x y : Param) : Node :=
      .binary id .assign (.param x) (.param y) none none .bool
    let rewritten : Node := .binary 5 .assign (.param q) c none none .bool
    let s : State :=
      { State.start none {} with env := .ofCaptures [(0, .bool true), (1, .bool false)] }
    let r : Rewriter Unit := .substitution p c
    (∃ t, r.run (copy 3 q p) () 5 = (.ok rewritten, t)) ∧
      (∃ t, eval (Scripts.host {}) 3 rewritten s = .value (.bool true) t ∧
        eval (Scripts.host {}) 3 (copy 3 q p) s = .value (.bool true) t ∧
        t.env.lookup 1 = some (.bool true)) ∧
      ∃ e t, r.run (copy 4 p q) () 5 = (.error e, t) := by
  intro p q c copy rewritten s r
  have hown (x : Param) (hx : x ∈ [p, q]) : (Node.param x).Substitutable p := by
    refine ⟨rfl, nofun, ?_⟩
    rintro _ ⟨⟩ hid
    rcases List.mem_pair.mp hx with rfl | rfl
    · rfl
    · cases hid
  have hparam {P : Item → Prop} (x : Param) (h : P (.param x)) : (Item.param x).All P := .mk h nofun
  have hcopy {P : Item → Prop} (id : Nat) (x y : Param) (h : P (.node (copy id x y)))
      (hx : P (.param x)) (hy : P (.param y)) : (Item.node (copy id x y)).All P :=
    .mk h (List.forall_mem_cons.mpr ⟨hparam x hx, List.forall_mem_singleton.mpr (hparam y hy)⟩)
  have hold (id : Nat) (hid : id < 5) (x y : Param) :
      (Item.node (copy id x y)).All (Item.Older 5) :=
    hcopy id x y (.of_identity rfl hid) nofun nofun
  have hplain (id : Nat) (x y : Param) (hx : x ∈ [p, q]) (hy : y ∈ [p, q]) :
      (Item.node (copy id x y)).All fun i => ∀ m, i = .node m → m.Substitutable p :=
    hcopy id x y (by rintro _ ⟨⟩; exact ⟨rfl, nofun, nofun⟩) (by rintro _ ⟨⟩; exact hown x hx)
      (by rintro _ ⟨⟩; exact hown y hy)
  have hgood := substitution_transparent Unit p (.bool true) 2 5 c (copy 3 q p) rfl
    (hcopy 3 q p rfl rfl rfl) (hold 3 (by decide) q p) (hplain 3 q p (by simp) (by simp))
  have hbad := substitution_transparent Unit p (.bool true) 2 5 c (copy 4 p q) rfl
    (hcopy 4 p q rfl rfl rfl) (hold 4 (by decide) p q) (hplain 4 p q (by simp) (by simp))
  have hrun : r.run (copy 3 q p) () 5 = (.ok rewritten, (), 6) := rfl
  have heval := (hgood.1 () 5 rewritten _ (Nat.le_refl 5) hrun (Scripts.host {}) 3 s rfl).1
  have hcopied : ∃ t, eval (Scripts.host {}) 3 (copy 3 q p) s = .value (.bool true) t ∧
      t.env.lookup 1 = some (.bool true) := ⟨_, rfl, rfl⟩
  obtain ⟨t, ht, hlookup⟩ := hcopied
  exact ⟨⟨_, hrun⟩, ⟨t, heval.trans ht, ht, hlookup⟩,
    hbad.2 (fun h => h.here (.inr ⟨p, rfl, rfl⟩)) () 5 (Nat.le_refl 5)⟩

end ExprTree
