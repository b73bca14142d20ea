import ExprTree.Eval
import ExprTree.Proofs.Environment
import ExprTree.Proofs.TypedOperators
import ExprTree.Proofs.Names
import ExprTree.Proofs.Outcome

/-! Well-typed values, stores, trees and states. A value is typed at a store, and stays so in every
store that extends it: arrays keep their element types, and delegates stay what they are. -/
namespace ExprTree

/-! ### Stores that grow -/

/-- Arrays keep their element types and delegates stay. -/
structure Store.Extends (s t : Store) : Prop where
  arrays {addr : Nat} {c : Items} :
    s.arrays[addr]? = some c → ∃ d, t.arrays[addr]? = some d ∧ d.elem = c.elem
  delegates {addr : Nat} {b : DelegateBody} :
    s.delegates[addr]? = some b → t.delegates[addr]? = some b

namespace Store.Extends

variable {s t u : Store}

theorem refl (s : Store) : s.Extends s := ⟨fun h => ⟨_, h, rfl⟩, fun h => h⟩

theorem trans (h : s.Extends t) (h' : t.Extends u) : s.Extends u where
  arrays hc := by
    obtain ⟨d, hd, hdc⟩ := h.arrays hc
    obtain ⟨e, he, hed⟩ := h'.arrays hd
    exact ⟨e, he, hed.trans hdc⟩
  delegates hb := h'.delegates (h.delegates hb)

theorem of_eq (ha : t.arrays = s.arrays) (hd : t.delegates = s.delegates) : s.Extends t :=
  ⟨fun h => ⟨_, ha ▸ h, rfl⟩, fun h => hd ▸ h⟩

end Store.Extends

/-- A change that the evaluator makes by itself: besides arrays and delegates only new
exceptions. -/
structure Store.Native (s t : Store) : Prop extends s.Extends t where
  lists : t.lists = s.lists
  statics : t.statics = s.statics
  log : t.log = s.log
  objects : t.objects = s.objects ∨
    ∃ message, t.objects = s.objects.push [(Store.messageField, .str message)]

/-! ### Uses of handles -/

/-- How a tree uses a handle: with a receiver and arguments of these types. -/
inductive Use where
  | method (m : Method) (receiver : Option Ty) (args : List Ty)
  | construct (c : Constructor)
  | get (m : Member) (target : Option Ty)
  | set (m : Member) (target : Option Ty)
  | getItem (i : Indexer) (target : Ty)
  | setItem (i : Indexer) (target : Ty)

def Method.operatorUse (m : Method) : Use := .method m none m.params

def ElementInit.use (collection : Ty) (i : ElementInit) : Use :=
  .method i.add (some collection) i.add.params

/-- A static member has no target. -/
def Member.target (m : Member) (owner : Ty) : Option Ty := if m.isStatic then none else some owner

mutual

def MemberBinding.uses (owner : Ty) : MemberBinding → List Use
  | .assign _ m _ => [.set m (m.target owner)]
  | .nested _ m bs => .get m (m.target owner) :: bindingUses m.ty bs
  | .list _ m is => .get m (m.target owner) :: is.map (ElementInit.use m.ty)

def bindingUses (owner : Ty) : List MemberBinding → List Use
  | [] => []
  | b :: bs => b.uses owner ++ bindingUses owner bs

end

/-- What writing to a place uses. -/
def Node.writes : Node → List Use
  | .member _ x m => [.set m (x.map Node.ty)]
  | .index _ x (some i) _ _ => [.setItem i x.ty]
  | _ => []

/-- The handles that a node itself uses. A comparer is given the value and a test as they are. -/
def Node.uses : Node → List Use
  | .binary _ .assign l _ _ _ _ => l.writes
  | .binary _ (.compound _) l _ m _ _ => l.writes ++ (m.map Method.operatorUse).toList
  | .binary _ _ _ _ m _ _ => (m.map Method.operatorUse).toList
  | .unary _ op x m _ =>
    (if op.step?.isSome then x.toList.flatMap Node.writes else []) ++
      (m.map Method.operatorUse).toList
  | .call _ x m _ => [.method m (x.map Node.ty) m.params]
  | .new c => [.construct c.ctor]
  | .member _ x m => [.get m (x.map Node.ty)]
  | .index _ x (some i) _ _ => [.getItem i x.ty]
  | .switch _ v cases _ (some m) _ =>
    (cases.flatMap SwitchCase.tests).map fun t => .method m none [v.ty, t.ty]
  | .listInit _ c is => .construct c.ctor :: is.map (ElementInit.use c.ty)
  | .memberInit _ c bs => .construct c.ctor :: bindingUses c.ty bs
  | _ => []

/-! ### Trees -/

/-- The nodes whose static type says less than the evaluation does or more: extensions, coalescing,
truth tests by a method, empty blocks of a type, array indices of type `object`, and a native plus
that may find a text on the right only. -/
def Node.Irregular : Node → Prop
  | .extension .. | .binary _ .coalesce _ _ _ _ _ => True
  | .unary _ (.arith .isTrue) _ m _ | .unary _ (.arith .isFalse) _ m _ => m.isSome
  | .block _ _ [] t => t ≠ .void
  | .binary _ .arrayIndex _ r _ _ _ => r.ty = .object
  | .binary _ (.arith op) l r m _ _ | .binary _ (.compound op) l r m _ _ =>
    m = none ∧ HidesText op l.ty r.ty
  | _ => False

/-- The types of parameters and labels by their ids, the signatures of the host's delegates, the
uses of handles that there are, and what the host keeps of the store for itself. -/
structure Typing where
  param : Nat → Ty
  label : Nat → Ty
  delegate : Nat → Signature
  uses : Use → Prop
  own : Store → Prop
  own_native {s t : Store} : s.Native t → own s → own t

namespace Typing

variable (Γ : Typing)

/-- The id of a parameter or of a label stands for one declaration, and so for its type. -/
structure Declares (n : Node) : Prop where
  slots : ∀ p ∈ n.slots, p.ty = Γ.param p.id
  targets : ∀ l ∈ n.targets, l.ty = Γ.label l.id

def signature : DelegateBody → Signature
  | .closure f _ _ => f.signature
  | .host id => Γ.delegate id

/-- The store has what the value refers to, of the type that the value says. -/
def Backed (w : Store) : Value → Prop
  | .array e addr => ∃ c, w.arrays[addr]? = some c ∧ c.elem = e
  | .delegate sig addr => ∃ b, w.delegates[addr]? = some b ∧ Γ.signature b = sig
  | _ => True

/-- At the store the value may stand where the type is declared. -/
structure Has (w : Store) (v : Value) (t : Ty) : Prop where
  fits : v.fits t
  backed : Γ.Backed w v

/-- What is asked of a single node. -/
structure Regular (w : Store) (n : Node) : Prop where
  made : n.Made
  regular : ¬n.Irregular
  declared : Γ.Declares n
  uses : ∀ u ∈ n.uses, Γ.uses u
  constant : ∀ id v t, n = .constant id v t → Γ.Backed w v

/-- A tree that the factories built without an irregular node. -/
def Tree (w : Store) (n : Node) : Prop := n.All (Γ.Regular w)

/-- The items of arrays fit the element types, and closures are trees over fitting captures. -/
structure StoreOk (w : Store) : Prop where
  arrays {addr : Nat} {c : Items} : w.arrays[addr]? = some c → ∀ v ∈ c.items, Γ.Has w v c.elem
  closures {f : Lambda} {captures : Slots} {limit : Option Nat} :
    .closure f captures limit ∈ w.delegates →
      Γ.Tree w (.lambda f) ∧ ∀ i v, (i, v) ∈ captures → Γ.Has w v (Γ.param i)
  own : Γ.own w

/-- The slots fit their parameters' types, and the store is well typed. -/
structure Inv (s : State) : Prop where
  slots {i : Nat} {v : Value} : s.env.Entry i v → Γ.Has s.store v (Γ.param i)
  handling : ∀ x ∈ s.handling, Γ.Backed s.store x
  store : Γ.StoreOk s.store

variable {Γ} {w u : Store}

/-! ### Extension keeps types -/

theorem Backed.mono {x : Value} (hw : w.Extends u) (h : Γ.Backed w x) : Γ.Backed u x := by
  cases x with
  | array e addr =>
    obtain ⟨c, hc, he⟩ := h
    obtain ⟨d, hd, hdc⟩ := hw.arrays hc
    exact ⟨d, hd, hdc.trans he⟩
  | delegate sig addr =>
    obtain ⟨b, hb, hs⟩ := h
    exact ⟨b, hw.delegates hb, hs⟩
  | _ => trivial

theorem backed_of_atom {x : Value} (h : x.isAtom) : Γ.Backed w x := by
  cases x <;> trivial

theorem zero_typed {t : Ty} : Γ.Has w (.zero t) t :=
  ⟨Value.zero_fits, backed_of_atom Value.isAtom_zero⟩

theorem void_typed : Γ.Has w .void .void := @zero_typed Γ w .void

theorem Has.mono {x : Value} {t : Ty} (hw : w.Extends u) (h : Γ.Has w x t) : Γ.Has u x t :=
  ⟨h.fits, h.backed.mono hw⟩

theorem Tree.mono {n : Node} (hw : w.Extends u) (h : Γ.Tree w n) : Γ.Tree u n := by
  induction h with
  | mk here _ ih =>
    have hconst := fun id v t hn => (here.constant id v t hn).mono hw
    exact .mk ⟨here.made, here.regular, here.declared, here.uses, hconst⟩ ih

theorem Tree.child {n c : Node} (h : Γ.Tree w n) (hc : c ∈ n.children) : Γ.Tree w c :=
  Node.All.child h hc

theorem tree_mk {n : Node} (h : Γ.Regular w n) (hc : ∀ c ∈ n.children, Γ.Tree w c) : Γ.Tree w n :=
  .mk h hc

theorem storeOk_empty (h : Γ.own {}) : Γ.StoreOk {} :=
  ⟨fun hc => absurd (Array.mem_of_getElem? hc) (Array.not_mem_empty _),
    fun hf => absurd hf (Array.not_mem_empty _), h⟩

theorem Inv.later {s : State} (h : Γ.Inv s) (hw : s.store.Extends u) (hu : Γ.StoreOk u) :
    Γ.Inv { s with store := u } :=
  ⟨fun he => (h.slots he).mono hw, fun x hx => (h.handling x hx).mono hw, hu⟩

/-! ### The evaluator's own changes -/

/-- What was well typed and is extended by well-typed cells is well typed. -/
theorem StoreOk.grow (h : Γ.StoreOk w) (hn : w.Native u)
    (ha : ∀ (addr : Nat) (c : Items), u.arrays[addr]? = some c →
      w.arrays[addr]? = some c ∨ ∀ v ∈ c.items, Γ.Has u v c.elem)
    (hd : ∀ f captures limit, .closure f captures limit ∈ u.delegates →
      .closure f captures limit ∈ w.delegates ∨
        Γ.Tree u (.lambda f) ∧ ∀ i v, (i, v) ∈ captures → Γ.Has u v (Γ.param i)) : Γ.StoreOk u where
  arrays {addr c} hc := by
    rcases ha addr c hc with hw | hw
    · exact fun v hv => (h.arrays hw v hv).mono hn.toExtends
    · exact hw
  closures {f captures limit} hf := by
    rcases hd f captures limit hf with hw | hw
    · obtain ⟨ht, hc⟩ := h.closures hw
      exact ⟨ht.mono hn.toExtends, fun i v hv => (hc i v hv).mono hn.toExtends⟩
    · exact hw
  own := Γ.own_native hn h.own

/-- Lists, objects, statics and the log are the host's. -/
theorem StoreOk.carry (h : Γ.StoreOk w) (ha : u.arrays = w.arrays) (hd : u.delegates = w.delegates)
    (ho : Γ.own u) : Γ.StoreOk u where
  arrays hc v hv := (h.arrays (ha ▸ hc) v hv).mono (.of_eq ha hd)
  closures hf := by
    obtain ⟨ht, hc⟩ := h.closures (hd ▸ hf)
    exact ⟨ht.mono (.of_eq ha hd), fun i v hv => (hc i v hv).mono (.of_eq ha hd)⟩
  own := ho

theorem native_newException (w : Store) (c : ClassType) (message : String) :
    w.Native (w.newException c message).2 :=
  ⟨.of_eq rfl rfl, rfl, rfl, rfl, Or.inr ⟨message, rfl⟩⟩

theorem storeOk_newException {c : ClassType} {message : String} (h : Γ.StoreOk w) :
    Γ.StoreOk (w.newException c message).2 :=
  h.grow (native_newException w c message) (fun _ _ hc => Or.inl hc) fun _ _ _ hf => Or.inl hf

theorem native_newArray (w : Store) (e : Ty) (items : Array Value) :
    w.Native (w.newArray e items).2 where
  arrays {addr c} hc := by
    have hlt : addr ≠ w.arrays.size := Nat.ne_of_lt (Array.getElem?_eq_some_iff.mp hc).1
    exact ⟨c, by simp [Store.newArray, Array.getElem?_push, hlt, hc], rfl⟩
  delegates hb := hb
  lists := rfl
  statics := rfl
  log := rfl
  objects := Or.inl rfl

theorem newArray_typed {e : Ty} {items : Array Value} (h : Γ.StoreOk w)
    (hi : ∀ v ∈ items, Γ.Has w v e) :
    Γ.StoreOk (w.newArray e items).2 ∧
      Γ.Has (w.newArray e items).2 (w.newArray e items).1 (.array e) := by
  have hn := native_newArray w e items
  refine ⟨h.grow hn (fun addr c hc => ?_) fun _ _ _ hf => Or.inl hf, Value.fits_runtimeType, ?_⟩
  · simp only [Store.newArray, Array.getElem?_push] at hc
    split at hc
    · cases hc
      exact Or.inr fun v hv => (hi v hv).mono hn.toExtends
    · exact Or.inl hc
  · exact ⟨⟨e, items⟩, by simp [Store.newArray], rfl⟩

theorem native_setArrayItem (w : Store) (addr i : Nat) (v : Value) :
    w.Native (w.setArrayItem addr i v) where
  arrays {a c} hc := by
    by_cases h : addr = a
    · exact ⟨{ c with items := c.items.setIfInBounds i v }, by
        simp [Store.setArrayItem, Store.setItem, Array.getElem?_modify, h, hc], rfl⟩
    · exact ⟨c, by simp [Store.setArrayItem, Store.setItem, Array.getElem?_modify, h, hc], rfl⟩
  delegates hb := hb
  lists := rfl
  statics := rfl
  log := rfl
  objects := Or.inl rfl

theorem storeOk_setArrayItem {e : Ty} {addr i : Nat} {v : Value} (h : Γ.StoreOk w)
    (ha : Γ.Backed w (.array e addr)) (hv : Γ.Has w v e) : Γ.StoreOk (w.setArrayItem addr i v) := by
  have hn := native_setArrayItem w addr i v
  refine h.grow hn (fun a c hc => ?_) fun _ _ _ hf => Or.inl hf
  obtain ⟨c', hc', rfl⟩ := ha
  simp only [Store.setArrayItem, Store.setItem, Array.getElem?_modify] at hc
  split at hc
  · rename_i heq
    subst heq
    simp only [hc', Option.map_some, Option.some.injEq] at hc
    subst hc
    refine Or.inr fun x hx => ?_
    rcases Array.mem_or_eq_of_mem_setIfInBounds hx with hx | rfl
    · exact (h.arrays hc' x hx).mono hn.toExtends
    · exact hv.mono hn.toExtends
  · exact Or.inl hc

theorem native_newDelegate (w : Store) (sig : Signature) (b : DelegateBody) :
    w.Native (w.newDelegate sig b).2 where
  arrays hc := ⟨_, hc, rfl⟩
  delegates {addr b'} hb := by
    have hlt : addr ≠ w.delegates.size := Nat.ne_of_lt (Array.getElem?_eq_some_iff.mp hb).1
    simp [Store.newDelegate, Array.getElem?_push, hlt, hb]
  lists := rfl
  statics := rfl
  log := rfl
  objects := Or.inl rfl

theorem closure_typed {f : Lambda} {captures : Slots} {limit : Option Nat} (h : Γ.StoreOk w)
    (hf : Γ.Tree w (.lambda f)) (hc : ∀ i v, (i, v) ∈ captures → Γ.Has w v (Γ.param i)) :
    let r := w.newDelegate f.signature (.closure f captures limit)
    Γ.StoreOk r.2 ∧ Γ.Has r.2 r.1 f.ty := by
  intro r
  have hn := native_newDelegate w f.signature (.closure f captures limit)
  refine ⟨h.grow hn (fun _ _ hc => Or.inl hc) fun g c l hg => ?_, Value.fits_runtimeType, ?_⟩
  · rcases Array.mem_push.mp hg with hg | hg
    · exact Or.inl hg
    · cases hg
      exact Or.inr ⟨hf.mono hn.toExtends, fun i v hv => (hc i v hv).mono hn.toExtends⟩
  · exact ⟨.closure f captures limit, by simp [r, Store.newDelegate], rfl⟩

/-- The items of an array that a value refers to. -/
theorem StoreOk.item {e : Ty} {addr : Nat} {v : Value} (h : Γ.StoreOk w)
    (ha : Γ.Backed w (.array e addr)) (hv : v ∈ w.arrayItems addr) : Γ.Has w v e := by
  obtain ⟨c, hc, rfl⟩ := ha
  exact h.arrays hc v (by simpa [Store.arrayItems, hc] using hv)

end Typing

end ExprTree
