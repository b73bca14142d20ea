import ExprTree.Proofs.Environment
import ExprTree.Proofs.NodePlan
import Mathlib.Data.List.Forall2

/-! Plans that do the same under other names. A link tells which nodes, slots, labels and
environments correspond; two plans are linked if they take corresponding actions one after the
other, whatever the same values they see on their way. -/
namespace ExprTree

structure Link where
  node : Node → Node → Prop
  /-- The parameters that may be bound or assigned, by id. -/
  slot : Nat → Nat → Prop
  label : Label → Label → Prop
  env : Environment → Environment → Prop

namespace Link

/-- Everything corresponds to itself. -/
def same : Link := ⟨Eq, Eq, Eq, Eq⟩

variable (L : Link)

structure Names (p q : Param) : Prop where
  id : L.slot p.id q.id
  name : q.name = p.name
  ty : q.ty = p.ty
  text : q.text = p.text

structure Targets (k l : Label) : Prop where
  label : L.label k l
  ty : l.ty = k.ty
  text : l.text = k.text

/-- The same values under corresponding names. -/
def Binds (bs cs : Slots) : Prop := List.Forall₂ (fun b c => L.slot b.1 c.1 ∧ c.2 = b.2) bs cs

structure Sees (w w' : View) : Prop where
  env : L.env w.env w'.env
  handling : w'.handling = w.handling
  store : w'.store = w.store

inductive Signals : Signal → Signal → Prop where
  | fatal (e : EvalError) : Signals (.fatal e) (.fatal e)
  | thrown (x : Value) : Signals (.thrown x) (.thrown x)
  | jump {k l : Label} (h : L.Targets k l) (v : Value) : Signals (.jump k v) (.jump l v)

inductive Catches : Caught → Caught → Prop where
  | value (v : Value) : Catches (.value v) (.value v)
  | thrown (x : Value) : Catches (.thrown x) (.thrown x)
  | jump {k l : Label} (h : L.Targets k l) (v : Value) : Catches (.jump k v) (.jump l v)

inductive Frames : Frame → Frame → Prop where
  | bindings {bs cs : Slots} (h : L.Binds bs cs) : Frames (.bindings bs) (.bindings cs)
  | handling (x : Value) : Frames (.handling x) (.handling x)

/-- The nodes of two sequences correspond, and those after corresponding labels. -/
structure Sequences (ns ms : List Node) : Prop where
  nodes : List.Forall₂ L.node ns ms
  rest {k l : Label} (h : L.Targets k l) :
    Option.Rel (List.Forall₂ L.node) (Evaluator.afterLabel? k ns) (Evaluator.afterLabel? l ms)

inductive Acts : Action → Action → Prop where
  | eval {n m : Node} (h : L.node n m) : Acts (.eval n) (.eval m)
  | sequence {ns ms : List Node} (h : L.Sequences ns ms) : Acts (.sequence ns) (.sequence ms)
  | loop {n m : Node} {b b' c c' : Option Label} (h : L.node n m) (hb : Option.Rel L.Targets b b')
    (hc : Option.Rel L.Targets c c') : Acts (.loop n b c) (.loop m b' c')
  | use (c : HandleCall) : Acts (.use c) (.use c)
  | invoke (f : Value) (args : List Value) : Acts (.invoke f args) (.invoke f args)
  | convert {f g : Lambda} (h : L.node (.lambda f) (.lambda g)) (v : Value) :
    Acts (.convert f v) (.convert g v)
  | assign {p q : Param} (h : L.Names p q) (v : Value) : Acts (.assign p v) (.assign q v)
  | element (addr position : Nat) (v : Value) :
    Acts (.element addr position v) (.element addr position v)
  | newArray (elem : Ty) (items : Array Value) : Acts (.newArray elem items) (.newArray elem items)
  | newException (c : ClassType) (message : String) :
    Acts (.newException c message) (.newException c message)
  | closure {f g : Lambda} (h : L.node (.lambda f) (.lambda g)) : Acts (.closure f) (.closure g)

end Link

/-- The plans end in results that are related by `Q`. The first one may look at what the second does
not need. -/
inductive Plan.Linked (L : Link) : {α : Type} → (α → α → Prop) → Plan α → Plan α → Prop where
  | pure {α : Type} {Q : α → α → Prop} {a b : α} (h : Q a b) : Linked L Q (.pure a) (.pure b)
  | signal {α : Type} {Q : α → α → Prop} {x y : Signal} (h : L.Signals x y) :
    Linked L Q (.signal x) (.signal y)
  | endless {α : Type} {Q : α → α → Prop} : Linked L Q .endless .endless
  | look {α : Type} {Q : α → α → Prop} {next next' : View → Plan α}
    (h : ∀ w w', L.Sees w w' → Linked L Q (next w) (next' w')) :
    Linked L Q (.look next) (.look next')
  | peek {α : Type} {Q : α → α → Prop} {next : View → Plan α} {p : Plan α}
    (h : ∀ w w', L.Sees w w' → Linked L Q (next w) p) : Linked L Q (.look next) p
  | act {α : Type} {Q : α → α → Prop} {a b : Action} {next next' : Value → Plan α} (ha : L.Acts a b)
    (h : ∀ v, Linked L Q (next v) (next' v)) : Linked L Q (.act a next) (.act b next')
  | within {α : Type} {Q : α → α → Prop} {f g : Frame} {p q : Plan Value}
    {next next' : Value → Plan α}
    (hf : L.Frames f g) (hp : Linked L Eq p q) (h : ∀ v, Linked L Q (next v) (next' v)) :
    Linked L Q (.within f p next) (.within g q next')
  | attempt {α : Type} {Q : α → α → Prop} {p q : Plan Value} {next next' : Caught → Plan α}
    (hp : Linked L Eq p q) (h : ∀ c d, L.Catches c d → Linked L Q (next c) (next' d)) :
    Linked L Q (.attempt p next) (.attempt q next')
  | final {α : Type} {Q : α → α → Prop} {p q : Plan Value} {n m : Node}
    {next next' : Value → Plan α}
    (hp : Linked L Eq p q) (hn : L.node n m) (h : ∀ v, Linked L Q (next v) (next' v)) :
    Linked L Q (.final p n next) (.final q m next')

namespace Plan

variable {L : Link} {α β : Type} {Q : α → α → Prop} {P : β → β → Prop} {p q : Plan α}

theorem Linked.bind {f g : α → Plan β} (h : Linked L Q p q)
    (hf : ∀ a b, Q a b → Linked L P (f a) (g b)) : Linked L P (p >>= f) (q >>= g) := by
  change Linked L P (Plan.bind p f) (Plan.bind q g)
  induction h with
  | pure h => exact hf _ _ h
  | signal h => exact .signal h
  | endless => exact .endless
  | look h ih => exact .look fun w w' hw => ih w w' hw hf
  | peek h ih => exact .peek fun w w' hw => ih w w' hw hf
  | act ha h ih => exact .act ha fun v => ih v hf
  | within hb hp h _ ih => exact .within hb hp fun v => ih v hf
  | attempt hp h _ ih => exact .attempt hp fun c d hc => ih c d hc hf
  | final hp hn h _ ih => exact .final hp hn fun v => ih v hf

end Plan

/-! ### Nodes linked with themselves -/

namespace Link

theorem same_targets {k l : Label} : same.Targets k l ↔ l = k :=
  ⟨fun h => h.label.symm, fun h => h ▸ ⟨rfl, rfl, rfl⟩⟩

theorem same_names {p q : Param} : same.Names p q ↔ q = p := by
  refine ⟨fun h => ?_, fun h => h ▸ ⟨rfl, rfl, rfl, rfl⟩⟩
  obtain ⟨hi, hn, ht, -⟩ := h
  have hi : p.id = q.id := hi
  cases p
  cases q
  simp_all

theorem same_signals {x y : Signal} : same.Signals x y ↔ y = x := by
  refine ⟨fun h => ?_, fun h => ?_⟩
  · cases h with
    | fatal e => rfl
    | thrown v => rfl
    | jump h v => rw [same_targets.mp h]
  · subst h
    cases y with
    | fatal e => exact .fatal e
    | thrown v => exact .thrown v
    | jump l v => exact .jump (same_targets.mpr rfl) v

theorem same_catches {c d : Caught} (h : same.Catches c d) : d = c := by
  cases h with
  | value v => rfl
  | thrown x => rfl
  | jump h v => rw [same_targets.mp h]

theorem same_sees {w w' : View} (h : same.Sees w w') : w' = w := by
  obtain ⟨he, hh, hs⟩ := h
  have he : w.env = w'.env := he
  cases w
  cases w'
  simp_all

theorem same_binds {bs cs : Slots} : same.Binds bs cs ↔ cs = bs := by
  refine ⟨fun h => ?_, fun h => ?_⟩
  · induction h with
    | nil => rfl
    | cons hb _ ih =>
      obtain ⟨hi, hv⟩ := hb
      rw [ih, Prod.ext (Eq.symm hi) hv]
  · subst h
    exact List.forall₂_same.mpr fun _ _ => ⟨rfl, rfl⟩

theorem same_sequences (ns : List Node) : same.Sequences ns ns where
  nodes := List.forall₂_same.mpr fun _ _ => rfl
  rest h := by
    rw [same_targets.mp h]
    cases Evaluator.afterLabel? _ ns with
    | none => exact .none
    | some rest => exact .some (List.forall₂_same.mpr fun _ _ => rfl)

theorem same_frames (f : Frame) : same.Frames f f := by
  cases f with
  | bindings bs => exact .bindings (same_binds.mpr rfl)
  | handling x => exact .handling x

theorem same_acts (a : Action) : same.Acts a a := by
  have label (b : Option Label) : Option.Rel same.Targets b b := by
    cases b with
    | none => exact .none
    | some l => exact .some (same_targets.mpr rfl)
  cases a with
  | eval n => exact .eval rfl
  | sequence ns => exact .sequence (same_sequences ns)
  | loop n b c => exact .loop rfl (label b) (label c)
  | use c => exact .use c
  | invoke f args => exact .invoke f args
  | convert f v => exact .convert rfl v
  | assign p v => exact .assign (same_names.mpr rfl) v
  | element addr position v => exact .element addr position v
  | newArray elem items => exact .newArray elem items
  | newException c message => exact .newException c message
  | closure f => exact .closure rfl

end Link

theorem Plan.linked_same {α : Type} (p : Plan α) : p.Linked .same Eq p := by
  induction p with
  | pure a => exact .pure rfl
  | signal x => exact .signal (Link.same_signals.mpr rfl)
  | endless => exact .endless
  | look next ih =>
    refine .look fun w w' h => ?_
    rw [Link.same_sees h]
    exact ih w
  | act a next ih => exact .act (Link.same_acts a) ih
  | within f p next ihp ih => exact .within (Link.same_frames f) ihp ih
  | attempt p next ihp ih =>
    refine .attempt ihp fun c d h => ?_
    rw [Link.same_catches h]
    exact ih c
  | final p n next ihp ih => exact .final ihp rfl ih

end ExprTree
