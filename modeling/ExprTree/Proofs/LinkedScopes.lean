import ExprTree.Proofs.MapStack
import ExprTree.Scopes

/-! An environment may be kept as a stack of numbers of scopes, each linked to the one below it.
Scopes are changed in place, and several environments live among the same scopes. They behave as
stacks of maps of their own all the same. -/
namespace ExprTree

namespace Scopes

variable {s t : Scopes} {i j n id : Nat} {v : Value} {rest stack : List Nat}

/-- The visible bindings from a scope outward; inner scopes hide outer ones. -/
def capture (s : Scopes) (i : Nat) : Slots :=
  (s.chain i).foldr (fun j acc => (s.slotsOf j).overlay acc) []

/-- The parent of a scope, if the scope is there. -/
def link? (s : Scopes) (i : Nat) : Option (Option Nat) := s.scopes[i]?.map Scope.parent

/-- Each scope is linked to the next one, which is older, and the last one to none. -/
def Links (s : Scopes) : List Nat → Prop
  | [] => True
  | [i] => s.link? i = some none
  | i :: j :: rest => s.link? i = some (some j) ∧ j < i ∧ s.Links (j :: rest)

theorem Links.tail (h : s.Links (i :: rest)) : s.Links rest := by
  cases rest with
  | nil => trivial
  | cons j rest => exact h.2.2

theorem Links.older (h : s.Links (i :: rest)) : ∀ j ∈ rest, j < i := by
  induction rest generalizing i with
  | nil => exact List.forall_mem_nil _
  | cons j rest ih =>
    obtain ⟨-, hlt, hrest⟩ := h
    exact List.forall_mem_cons.mpr ⟨hlt, fun k hk => Nat.lt_trans (ih hrest k hk) hlt⟩

theorem Links.head (h : s.Links (i :: rest)) : s.link? i = some rest.head? := by
  cases rest with
  | nil => exact h
  | cons j rest => exact h.1

theorem Links.lt (h : s.Links stack) : ∀ j ∈ stack, j < s.scopes.size := by
  induction stack with
  | nil => exact List.forall_mem_nil _
  | cons i rest ih =>
    refine List.forall_mem_cons.mpr ⟨?_, ih h.tail⟩
    obtain ⟨c, hc, -⟩ := Option.map_eq_some_iff.mp h.head
    exact (Array.getElem?_eq_some_iff.mp hc).1

theorem Links.nodup (h : s.Links stack) : stack.Nodup := by
  induction stack with
  | nil => exact List.nodup_nil
  | cons i rest ih =>
    have hnot : i ∉ rest := fun hi => Nat.lt_irrefl i (h.older i hi)
    exact List.nodup_cons.mpr ⟨hnot, ih h.tail⟩

theorem Links.length_le (h : s.Links (i :: rest)) : rest.length ≤ i := by
  induction rest generalizing i with
  | nil => exact Nat.zero_le _
  | cons j rest ih =>
    obtain ⟨-, hlt, hrest⟩ := h
    exact Nat.le_trans (Nat.succ_le_succ (ih hrest)) hlt

theorem Links.congr (h : s.Links stack)
    (hl : ∀ j ∈ stack, t.link? j = s.link? j) : t.Links stack := by
  induction stack with
  | nil => trivial
  | cons i rest ih =>
    obtain ⟨hi, hrest⟩ := List.forall_mem_cons.mp hl
    cases rest with
    | nil => exact hi.trans h
    | cons j rest => exact ⟨hi.trans h.1, h.2.1, ih h.2.2 hrest⟩

theorem Links.ancestors (h : s.Links (i :: rest)) (hn : rest.length < n) :
    s.ancestors n i = i :: rest := by
  induction rest generalizing i n with
  | nil =>
    obtain ⟨m, rfl⟩ : ∃ m, n = m + 1 := ⟨n - 1, by simp only [List.length_nil] at hn; omega⟩
    obtain ⟨⟨slots, parent⟩, hc, hp⟩ := Option.map_eq_some_iff.mp h.head
    cases hp
    rw [Scopes.ancestors, hc]
  | cons j rest ih =>
    obtain ⟨m, rfl⟩ : ∃ m, n = m + 1 := ⟨n - 1, by omega⟩
    obtain ⟨⟨slots, parent⟩, hc, hp⟩ := Option.map_eq_some_iff.mp h.head
    cases hp
    rw [Scopes.ancestors, hc]
    exact congrArg (i :: ·) (ih h.tail (Nat.lt_of_succ_lt_succ hn))

/-- Following the links finds the stack again. -/
theorem Links.chain (h : s.Links (i :: rest)) : s.chain i = i :: rest :=
  h.ancestors (Nat.lt_succ_of_le h.length_le)

/-! ### Changes -/

theorem link?_define : (s.define i id v).link? j = s.link? j := by
  rw [link?, define, Array.getElem?_modify, link?]
  split
  · cases s.scopes[j]? <;> rfl
  · rfl

theorem slotsOf_define (hi : i < s.scopes.size) :
    (s.define i id v).slotsOf j = if i = j then (s.slotsOf j).set id v else s.slotsOf j := by
  rw [slotsOf, define, Array.getElem?_modify, slotsOf]
  split
  · rename_i hj
    subst hj
    rw [Array.getElem?_eq_getElem hi]
    rfl
  · rfl

theorem getElem?_add {p : Option Nat} (hj : j < s.scopes.size) :
    (s.add p).2.scopes[j]? = s.scopes[j]? := by
  rw [add, Array.getElem?_push, if_neg (Nat.ne_of_lt hj)]

theorem link?_add_self {p : Option Nat} : (s.add p).2.link? s.scopes.size = some p := by
  rw [link?, add, Array.getElem?_push, if_pos rfl, Option.map_some]

theorem slotsOf_add_self {p : Option Nat} : (s.add p).2.slotsOf s.scopes.size = [] := by
  rw [slotsOf, add, Array.getElem?_push, if_pos rfl, Option.map_some, Option.getD_some]

/-- The scopes that were there are as they were, but for those of the stack. -/
def Spares (s t : Scopes) (stack : List Nat) : Prop :=
  s.scopes.size ≤ t.scopes.size ∧ ∀ j < s.scopes.size, j ∉ stack → t.scopes[j]? = s.scopes[j]?

theorem Spares.refl : s.Spares s stack := ⟨Nat.le_refl _, fun _ _ _ => rfl⟩

theorem Spares.trans {u : Scopes} (h : s.Spares t stack) (h' : t.Spares u stack) :
    s.Spares u stack :=
  ⟨Nat.le_trans h.1 h'.1,
    fun j hj hn => (h'.2 j (Nat.lt_of_lt_of_le hj h.1) hn).trans (h.2 j hj hn)⟩

theorem spares_add {p : Option Nat} : s.Spares (s.add p).2 stack :=
  ⟨by simp [add], fun _ hj _ => getElem?_add hj⟩

theorem spares_define (hi : i ∈ stack) : s.Spares (s.define i id v) stack := by
  refine ⟨by simp [define], fun j _ hj => ?_⟩
  have hne : i ≠ j := fun hij => hj (hij ▸ hi)
  rw [define, Array.getElem?_modify, if_neg hne]

/-- What is assigned in the scopes of a stack is what is assigned in its frames. -/
theorem assignIn_slotsOf (id : Nat) (v : Value) (hlt : ∀ j ∈ stack, j < s.scopes.size)
    (hnodup : stack.Nodup) :
    (stack.find? fun j => ((s.slotsOf j).get? id).isSome).map
      (fun j => stack.map (s.define j id v).slotsOf) =
      Environment.assignIn id v (stack.map s.slotsOf) := by
  induction stack with
  | nil => rfl
  | cons i rest ih =>
    obtain ⟨hi, hrest⟩ := List.forall_mem_cons.mp hlt
    obtain ⟨hnot, hnodup⟩ := List.nodup_cons.mp hnodup
    rw [List.find?_cons, List.map_cons, Environment.assignIn]
    by_cases hsome : ((s.slotsOf i).get? id).isSome
    · rw [if_pos hsome, hsome, Option.map_some, List.map_cons, slotsOf_define hi, if_pos rfl]
      refine congrArg (fun fs => some (_ :: fs)) (List.map_congr_left fun j hj => ?_)
      have hne : i ≠ j := fun hij => hnot (hij ▸ hj)
      rw [slotsOf_define hi, if_neg hne]
    · have hfalse : ((s.slotsOf i).get? id).isSome = false := by simpa using hsome
      rw [if_neg hsome, hfalse, ← ih hrest hnodup, Option.map_map]
      refine Option.map_congr fun j hj => ?_
      have hmem : j ∈ rest := List.mem_of_find?_eq_some hj
      have hne : j ≠ i := fun hij => hnot (hij ▸ hmem)
      rw [Function.comp_apply, List.map_cons, slotsOf_define (hrest j hmem), if_neg hne]

end Scopes

theorem mem_of_mem_popped {α : Type} {x : α} {xs : List α} (h : x ∈ popped xs) : x ∈ xs := by
  match xs with
  | [] | [_] => exact h
  | _ :: _ :: _ => exact List.mem_cons_of_mem _ h

theorem Environment.defineAll_empty {bs : Slots} :
    Environment.empty.defineAll bs = .ofCaptures bs := by
  suffices ∀ f : Slots, (⟨[], f⟩ : Environment).defineAll bs =
      ⟨[], bs.foldl (fun f b => f.set b.1 b.2) f⟩ from
    this []
  induction bs with
  | nil => exact fun f => rfl
  | cons b bs ih => exact fun f => ih (f.set b.1 b.2)

/-- An environment as a stack of scopes, the innermost first. The bottom one is kept apart as
well. -/
structure ScopeStack where
  stack : List Nat
  bottom : Nat

namespace ScopeStack

variable {s t : Scopes} {l : ScopeStack} {e : Environment} {op : ScopeOp}

def current (l : ScopeStack) : Nat := l.stack.headD l.bottom

/-- A scope without a parent that holds the captured values. -/
def ofCaptures (s : Scopes) (bs : Slots) : Scopes × ScopeStack :=
  let (i, s) := s.add none
  (bs.foldl (fun s (id, v) => s.define i id v) s, ⟨[i], i⟩)

/-- All but opening and closing is done by the current scope, which asks its parent where it has
to. -/
def perform (s : Scopes) (l : ScopeStack) : ScopeOp → ScopeAnswer × Scopes × ScopeStack
  | .push =>
    let (i, s) := s.add (some l.current)
    (.done, s, { l with stack := i :: l.stack })
  | .pop => (.done, s, { l with stack := popped l.stack })
  | .define id v => (.done, s.define l.current id v, l)
  | .assign id v => match s.assign? l.current id v with
    | some s => (.assigned true, s, l)
    | none => (.assigned false, s, l)
  | .lookup id => (.found (s.lookup l.current id), s, l)
  | .capture => (.captured (s.capture l.current).toMap, s, l)
  | .depth => (.counted l.stack.length, s, l)

/-- The scopes of the stack are linked in its order, and their slots are the frames of the
environment. -/
structure Stands (s : Scopes) (l : ScopeStack) (e : Environment) : Prop where
  links : s.Links l.stack
  bottom : l.stack.getLast? = some l.bottom
  frames : l.stack.map s.slotsOf = e.frames

/-- The stack has an innermost scope. -/
theorem Stands.exists_cons (h : Stands s l e) : ∃ rest, l.stack = l.current :: rest := by
  obtain ⟨stack, bottom⟩ := l
  cases stack with
  | nil => cases h.bottom
  | cons i rest => exact ⟨rest, rfl⟩

theorem Stands.current_mem (h : Stands s l e) : l.current ∈ l.stack := by
  obtain ⟨rest, hl⟩ := h.exists_cons
  rw [hl]
  exact List.mem_cons_self

theorem Stands.chain (h : Stands s l e) : s.chain l.current = l.stack := by
  obtain ⟨rest, hl⟩ := h.exists_cons
  have hlinks := h.links
  rw [hl] at hlinks ⊢
  exact hlinks.chain

/-- Scopes that are not of the stack do not matter to it. -/
theorem Stands.spared {other : List Nat} (h : Stands s l e) (hs : s.Spares t other)
    (ho : l.stack.Disjoint other) : Stands t l e := by
  have hsame (j : Nat) (hj : j ∈ l.stack) : t.scopes[j]? = s.scopes[j]? :=
    hs.2 j (h.links.lt j hj) (ho hj)
  refine ⟨h.links.congr fun j hj => ?_, h.bottom, ?_⟩
  · rw [Scopes.link?, hsame j hj, Scopes.link?]
  · rw [← h.frames]
    refine List.map_congr_left fun j hj => ?_
    rw [Scopes.slotsOf, hsame j hj, Scopes.slotsOf]

theorem Stands.push (h : Stands s l e) :
    Stands (l.perform s .push).2.1 (l.perform s .push).2.2 e.push := by
  obtain ⟨rest, hl⟩ := h.exists_cons
  have hold : Stands (s.add (some l.current)).2 l e :=
    h.spared Scopes.spares_add (List.disjoint_nil_right _)
  refine ⟨?_, ?_, ?_⟩
  · change (s.add (some l.current)).2.Links (s.scopes.size :: l.stack)
    have hlt : l.current < s.scopes.size := h.links.lt _ h.current_mem
    have hlinks := hold.links
    rw [hl] at hlinks ⊢
    exact ⟨Scopes.link?_add_self, hlt, hlinks⟩
  · change (s.scopes.size :: l.stack).getLast? = some l.bottom
    rw [hl, List.getLast?_cons_cons, ← hl]
    exact h.bottom
  · change (s.add (some l.current)).2.slotsOf s.scopes.size ::
      l.stack.map (s.add (some l.current)).2.slotsOf =
      [] :: e.frames
    rw [hold.frames, Scopes.slotsOf_add_self]

theorem Stands.pop (h : Stands s l e) : Stands s { l with stack := popped l.stack } e.pop := by
  obtain ⟨stack, bottom⟩ := l
  refine ⟨?_, ?_, ?_⟩
  · match stack, h.links with
    | [], hl => exact hl
    | [_], hl => exact hl
    | _ :: _ :: _, hl => exact hl.tail
  · match stack, h.bottom with
    | [], hb => exact hb
    | [_], hb => exact hb
    | _ :: _ :: _, hb => exact hb
  · change (popped stack).map s.slotsOf = e.pop.frames
    rw [map_popped, Environment.frames_pop, ← h.frames]

/-- One scope of the stack is given new slots. -/
theorem Stands.define_in {j id : Nat} {v : Value} {d : Environment} (h : Stands s l e)
    (hd : l.stack.map (s.define j id v).slotsOf = d.frames) : Stands (s.define j id v) l d :=
  ⟨h.links.congr fun _ _ => Scopes.link?_define, h.bottom, hd⟩

theorem Stands.define (id : Nat) (v : Value) (h : Stands s l e) :
    Stands (s.define l.current id v) l (e.define id v) := by
  refine h.define_in ?_
  have hlt : l.current < s.scopes.size := h.links.lt _ h.current_mem
  obtain ⟨rest, hl⟩ := h.exists_cons
  have hlinks := h.links
  rw [hl] at hlinks
  rw [Environment.frames_define, ← h.frames, hl, List.map_cons, List.map_cons, List.modifyHead_cons,
    Scopes.slotsOf_define hlt, if_pos rfl]
  refine congrArg _ (List.map_congr_left fun j hj => ?_)
  have hne : l.current ≠ j := Nat.ne_of_gt (hlinks.older j hj)
  rw [Scopes.slotsOf_define hlt, if_neg hne]

theorem Stands.assign? (id : Nat) (v : Value) (h : Stands s l e) :
    Option.Rel (fun t d => Stands t l d ∧ s.Spares t l.stack) (s.assign? l.current id v)
      (e.assign? id v) := by
  have hassign := Scopes.assignIn_slotsOf id v h.links.lt h.links.nodup
  rw [h.frames, ← Environment.frames_assign?] at hassign
  rw [Scopes.assign?, h.chain]
  cases hfind : l.stack.find? fun j => ((s.slotsOf j).get? id).isSome with
  | none =>
    rw [hfind] at hassign
    rw [Option.map_eq_none_iff.mp hassign.symm]
    exact .none
  | some j =>
    rw [hfind] at hassign
    obtain ⟨d, hd, hframes⟩ := Option.map_eq_some_iff.mp hassign.symm
    rw [hd]
    exact .some ⟨h.define_in hframes.symm, Scopes.spares_define (List.mem_of_find?_eq_some hfind)⟩

theorem Stands.lookup {id : Nat} (h : Stands s l e) : s.lookup l.current id = e.lookup id := by
  rw [Scopes.lookup, h.chain, Environment.lookup_eq_findSome?, ← h.frames, List.findSome?_map]
  rfl

theorem Stands.capture (h : Stands s l e) : s.capture l.current = e.capture := by
  rw [Scopes.capture, h.chain, Environment.frames_capture, ← h.frames, List.foldr_map]

/-- An operation has the same answer, touches no scope but those of the stack, and puts only new
ones on it. -/
theorem Stands.perform (op : ScopeOp) (h : Stands s l e) : (l.perform s op).1 = (e.perform op).1 ∧
    Stands (l.perform s op).2.1 (l.perform s op).2.2 (e.perform op).2 ∧
    s.Spares (l.perform s op).2.1 l.stack ∧
    ∀ j ∈ (l.perform s op).2.2.stack, j ∈ l.stack ∨ s.scopes.size ≤ j := by
  cases op with
  | push =>
    refine ⟨rfl, h.push, Scopes.spares_add, fun j hj => ?_⟩
    rcases List.mem_cons.mp hj with rfl | hj
    · exact .inr (Nat.le_refl _)
    · exact .inl hj
  | pop => exact ⟨rfl, h.pop, .refl, fun j hj => .inl (mem_of_mem_popped hj)⟩
  | define id v =>
    exact ⟨rfl, h.define id v, Scopes.spares_define h.current_mem, fun j hj => .inl hj⟩
  | assign id v =>
    have hassign := h.assign? id v
    simp only [ScopeStack.perform, Environment.perform]
    generalize s.assign? l.current id v = t? at hassign
    generalize e.assign? id v = d? at hassign
    cases hassign with
    | none => exact ⟨rfl, h, .refl, fun j hj => .inl hj⟩
    | some hd => exact ⟨rfl, hd.1, hd.2, fun j hj => .inl hj⟩
  | lookup id => exact ⟨congrArg ScopeAnswer.found h.lookup, h, .refl, fun j hj => .inl hj⟩
  | capture =>
    have hanswer := congrArg (fun b : Slots => ScopeAnswer.captured b.toMap) h.capture
    exact ⟨hanswer, h, .refl, fun j hj => .inl hj⟩
  | depth =>
    have hlength : l.stack.length = e.depth := by
      rw [← List.length_map s.slotsOf, h.frames]
      simp [Environment.frames, Environment.depth]
    exact ⟨congrArg ScopeAnswer.counted hlength, h, .refl, fun j hj => .inl hj⟩

theorem Stands.defineAll (bs : Slots) (h : Stands s l e) :
    Stands (bs.foldl (fun s (id, v) => s.define l.current id v) s) l (e.defineAll bs) ∧
      s.Spares (bs.foldl (fun s (id, v) => s.define l.current id v) s) l.stack := by
  induction bs generalizing s e with
  | nil => exact ⟨h, .refl⟩
  | cons b bs ih =>
    obtain ⟨hstands, hspares⟩ := ih (h.define b.1 b.2)
    exact ⟨hstands, (Scopes.spares_define h.current_mem).trans hspares⟩

/-- A new environment has a scope of its own. -/
theorem stands_ofCaptures (s : Scopes) (bs : Slots) :
    Stands (ofCaptures s bs).1 (ofCaptures s bs).2 (.ofCaptures bs) ∧
    s.Spares (ofCaptures s bs).1 [s.scopes.size] ∧ (ofCaptures s bs).2.stack = [s.scopes.size] := by
  have hempty : Stands (s.add none).2 ⟨[s.scopes.size], s.scopes.size⟩ .empty :=
    ⟨Scopes.link?_add_self, rfl, congrArg (fun f => [f]) Scopes.slotsOf_add_self⟩
  obtain ⟨hstands, hspares⟩ := hempty.defineAll bs
  rw [Environment.defineAll_empty] at hstands
  exact ⟨hstands, Scopes.spares_add.trans hspares, rfl⟩

end ScopeStack

/-! ### Several environments -/

/-- What is done with several environments: one more is made over captured values, or one is
used. -/
inductive EnvironmentUse where
  | create (captures : Slots)
  | on (index : Nat) (op : ScopeOp)

/-- A way to keep environments. -/
structure Keeper (W : Type) where
  create : Slots → W → W
  perform : Nat → ScopeOp → W → ScopeAnswer × W

namespace Keeper

variable {W X E : Type}

/-- The answers and what is kept in the end. -/
def run (K : Keeper W) : List EnvironmentUse → W → List ScopeAnswer × W
  | [], w => ([], w)
  | .create bs :: us, w => K.run us (K.create bs w)
  | .on k op :: us, w =>
    let (a, w) := K.perform k op w
    let (as, w) := K.run us w
    (a :: as, w)

/-- Each environment for itself. -/
def apart (create : Slots → E) (perform : E → ScopeOp → ScopeAnswer × E) : Keeper (List E) where
  create bs es := es ++ [create bs]
  perform k op es := match es[k]? with
    | some e => ((perform e op).1, es.set k (perform e op).2)
    | none => (.done, es)

/-- What relates two ways to keep environments at each use relates them in the end, with the same
answers. -/
theorem run_simulates {K : Keeper W} {L : Keeper X} {R : W → X → Prop}
    (hcreate : ∀ bs w x, R w x → R (K.create bs w) (L.create bs x))
    (hperform : ∀ k op w x, R w x →
      (K.perform k op w).1 = (L.perform k op x).1 ∧ R (K.perform k op w).2 (L.perform k op x).2)
    (us : List EnvironmentUse) {w : W} {x : X} (h : R w x) :
    (K.run us w).1 = (L.run us x).1 ∧ R (K.run us w).2 (L.run us x).2 := by
  induction us generalizing w x with
  | nil => exact ⟨rfl, h⟩
  | cons u us ih =>
    cases u with
    | create bs => exact ih (hcreate bs w x h)
    | on k op =>
      obtain ⟨hanswer, hkept⟩ := hperform k op w x h
      obtain ⟨hanswers, hend⟩ := ih hkept
      refine ⟨?_, hend⟩
      change (K.perform k op w).1 :: (K.run us (K.perform k op w).2).1 = _
      rw [hanswer, hanswers]
      rfl

end Keeper

/-- Environments as they are, each with its own frames. -/
def Environment.keeper : Keeper (List Environment) := .apart .ofCaptures Environment.perform

/-- Stacks of maps. -/
def MapStack.keeper : Keeper (List MapStack) := .apart .ofBindings MapStack.perform

theorem getElem?_append_singleton {α : Type} {xs : List α} {x : α} {j : Nat} (hj : j ≠ xs.length) :
    (xs ++ [x])[j]? = xs[j]? := by
  rcases Nat.lt_or_gt_of_ne hj with hlt | hgt
  · exact List.getElem?_append_left hlt
  · rw [List.getElem?_eq_none (Nat.le_of_lt hgt), List.getElem?_eq_none]
    rw [List.length_append, List.length_singleton]
    exact hgt

/-- Scopes, and the stacks of the environments that live there. -/
structure ScopeWorld where
  scopes : Scopes
  members : List ScopeStack

namespace ScopeWorld

variable {w : ScopeWorld} {es : List Environment} {k : Nat} {l : ScopeStack} {e : Environment}
  {op : ScopeOp} {bs : Slots}

/-- Nothing is there yet. -/
def empty : ScopeWorld := ⟨⟨.empty⟩, []⟩

def keeper : Keeper ScopeWorld where
  create bs w :=
    let (s, l) := ScopeStack.ofCaptures w.scopes bs
    ⟨s, w.members ++ [l]⟩
  perform k op w := match w.members[k]? with
    | some l =>
      let (a, s, l) := l.perform w.scopes op
      (a, ⟨s, w.members.set k l⟩)
    | none => (.done, w)

/-- Each stack stands for an environment, and no two have a scope in common. -/
structure Stands (w : ScopeWorld) (es : List Environment) : Prop where
  length : w.members.length = es.length
  each {k : Nat} {l : ScopeStack} {e : Environment} :
    w.members[k]? = some l → es[k]? = some e → l.Stands w.scopes e
  apart {j k : Nat} {l m : ScopeStack} : j ≠ k → w.members[j]? = some l → w.members[k]? = some m →
    l.stack.Disjoint m.stack

theorem Stands.lt (h : w.Stands es) (hl : w.members[k]? = some l) :
    ∀ i ∈ l.stack, i < w.scopes.scopes.size := by
  have hk : k < es.length := h.length ▸ (List.getElem?_eq_some_iff.mp hl).1
  exact (h.each hl (List.getElem?_eq_getElem hk)).links.lt

/-- One stack is new or has changed, and with it only scopes of its own and new ones. -/
theorem Stands.replace {s : Scopes} {ls : List ScopeStack} {ds : List Environment} {own : List Nat}
    (h : w.Stands es) (hlength : ls.length = ds.length) (hl : ls[k]? = some l)
    (hd : ds[k]? = some e) (hnew : l.Stands s e)
    (hother : ∀ j ≠ k, ls[j]? = w.members[j]? ∧ ds[j]? = es[j]?) (hspares : w.scopes.Spares s own)
    (hstack : ∀ i ∈ l.stack, i ∈ own ∨ w.scopes.scopes.size ≤ i)
    (hown : ∀ j ≠ k, ∀ m, w.members[j]? = some m → m.stack.Disjoint own) : Stands ⟨s, ls⟩ ds := by
  have hdisjoint (j : Nat) (hj : j ≠ k) (m : ScopeStack) (hm : w.members[j]? = some m) :
      m.stack.Disjoint l.stack := by
    intro i hi hil
    rcases hstack i hil with hi' | hi'
    · exact hown j hj m hm hi hi'
    · exact Nat.not_le_of_lt (h.lt hm i hi) hi'
  refine ⟨hlength, fun {j m d} hm hd' => ?_, fun {i j a b} hne ha hb => ?_⟩
  · by_cases hj : j = k
    · subst hj
      cases hl.symm.trans hm
      cases hd.symm.trans hd'
      exact hnew
    · obtain ⟨hls, hds⟩ := hother j hj
      exact (h.each (hls ▸ hm) (hds ▸ hd')).spared hspares (hown j hj m (hls ▸ hm))
  · by_cases hi : i = k
    · subst hi
      cases hl.symm.trans ha
      exact (hdisjoint j hne.symm b ((hother j hne.symm).1 ▸ hb)).symm
    · by_cases hj : j = k
      · subst hj
        cases hl.symm.trans hb
        exact hdisjoint i hi a ((hother i hi).1 ▸ ha)
      · exact h.apart hne ((hother i hi).1 ▸ ha) ((hother j hj).1 ▸ hb)

theorem Stands.create (h : w.Stands es) :
    Stands (keeper.create bs w) (Environment.keeper.create bs es) := by
  obtain ⟨hnew, hspares, hstack⟩ := ScopeStack.stands_ofCaptures w.scopes bs
  refine h.replace (k := w.members.length) ?_ ?_ ?_ hnew (fun j hj => ?_) hspares
    (fun i hi => .inl (hstack ▸ hi)) fun j hj m hm i hi hi' => ?_
  · simp [Environment.keeper, Keeper.apart, h.length]
  · exact List.getElem?_concat_length
  · rw [h.length]
    exact List.getElem?_concat_length
  · refine ⟨getElem?_append_singleton hj, ?_⟩
    rw [h.length] at hj
    exact getElem?_append_singleton hj
  · have hlt := h.lt hm i hi
    rw [List.mem_singleton.mp hi'] at hlt
    exact Nat.lt_irrefl _ hlt

theorem Stands.perform (h : w.Stands es) :
    (keeper.perform k op w).1 = (Environment.keeper.perform k op es).1 ∧
      Stands (keeper.perform k op w).2 (Environment.keeper.perform k op es).2 := by
  unfold keeper Environment.keeper Keeper.apart
  dsimp only
  cases hl : w.members[k]? with
  | none =>
    have hk : es[k]? = none := by
      rw [List.getElem?_eq_none_iff] at hl ⊢
      exact h.length ▸ hl
    rw [hk]
    exact ⟨rfl, h⟩
  | some l =>
    have hlt : k < w.members.length := (List.getElem?_eq_some_iff.mp hl).1
    have hlt' : k < es.length := h.length ▸ hlt
    have he : es[k]? = some es[k] := List.getElem?_eq_getElem hlt'
    rw [he]
    obtain ⟨hanswer, hstands, hspares, hstack⟩ := (h.each hl he).perform op
    refine ⟨hanswer,
      h.replace (k := k) ?_ (List.getElem?_set_self hlt) (List.getElem?_set_self hlt') hstands
      (fun j hj => ?_) hspares hstack fun j hj m hm => h.apart hj hm hl⟩
    · rw [List.length_set, List.length_set, h.length]
    · exact ⟨List.getElem?_set_ne hj.symm, List.getElem?_set_ne hj.symm⟩

theorem stands_empty : empty.Stands [] := ⟨rfl, nofun, nofun⟩

end ScopeWorld

/-- Environments in which no frame binds a parameter twice, and the maps that they stand for. -/
def Environment.Meant (es : List Environment) (mss : List MapStack) : Prop :=
  es.map Environment.maps = mss ∧ ∀ e ∈ es, e.Distinct

namespace Environment.Meant

variable {es : List Environment} {mss : List MapStack} {k : Nat} {op : ScopeOp} {bs : Slots}

theorem create (h : Meant es mss) :
    Meant (keeper.create bs es) (MapStack.keeper.create bs mss) := by
  obtain ⟨rfl, hd⟩ := h
  refine ⟨?_, List.forall_mem_append.mpr ⟨hd, List.forall_mem_singleton.mpr distinct_ofCaptures⟩⟩
  change (es ++ [ofCaptures bs]).map maps = es.map maps ++ [MapStack.ofBindings bs]
  rw [List.map_append, List.map_singleton, maps_ofCaptures]

theorem perform (h : Meant es mss) :
    (keeper.perform k op es).1 = (MapStack.keeper.perform k op mss).1 ∧
    Meant (keeper.perform k op es).2 (MapStack.keeper.perform k op mss).2 := by
  obtain ⟨rfl, hd⟩ := h
  unfold keeper MapStack.keeper Keeper.apart
  dsimp only
  rw [List.getElem?_map]
  cases he : es[k]? with
  | none => exact ⟨rfl, rfl, hd⟩
  | some e =>
    rw [Option.map_some]
    dsimp only
    rw [perform_maps]
    refine ⟨rfl, List.map_set, fun d hmem => ?_⟩
    rcases List.mem_or_eq_of_mem_set hmem with hmem | rfl
    · exact hd d hmem
    · exact (hd e (List.mem_of_getElem? he)).perform

end Environment.Meant

/-- Whatever is done with environments that are made over captured values and used one after the
other, as stacks of linked scopes, as they are and as stacks of maps they have the same answers. In
the end the slots of the linked scopes are those of the frames, which are the maps, no two
environments have a scope in common, and the operations do to each environment what they should do
to a stack of maps. -/
theorem environments_are_map_stacks (us : List EnvironmentUse) :
    (ScopeWorld.keeper.run us .empty).1 = (MapStack.keeper.run us []).1 ∧
    (Environment.keeper.run us []).1 = (MapStack.keeper.run us []).1 ∧
    (ScopeWorld.keeper.run us .empty).2.Stands (Environment.keeper.run us []).2 ∧
    (Environment.keeper.run us []).2.map Environment.maps = (MapStack.keeper.run us []).2 ∧
    ∀ e ∈ (Environment.keeper.run us []).2, e.Laws := by
  obtain ⟨hlinked, hstands⟩ :=
    Keeper.run_simulates (R := ScopeWorld.Stands) (fun _ _ _ h => h.create)
    (fun _ _ _ _ h => h.perform) us ScopeWorld.stands_empty
  have hnone : Environment.Meant [] [] := ⟨rfl, List.forall_mem_nil _⟩
  obtain ⟨hplain, hmeant⟩ := Keeper.run_simulates (R := Environment.Meant) (fun _ _ _ h => h.create)
    (fun _ _ _ _ h => h.perform) us hnone
  exact ⟨hlinked.trans hplain, hplain, hstands, hmeant.1, fun e he => (hmeant.2 e he).laws⟩

/-- The first environment hides one of two parameters in a scope and assigns the other from there.
The second one is made over what was visible before that and assigns the one that was hidden. -/
theorem hidden_and_assigned :
    let uses : List EnvironmentUse := [.create [(1, .bool true), (2, .bool true)], .on 0 .push,
      .on 0 (.define 1 (.bool false)), .create [(1, .bool false), (2, .bool true)],
      .on 0 (.assign 2 .null),
      .on 1 (.assign 1 .void), .on 0 (.lookup 1), .on 1 (.lookup 1), .on 1 (.lookup 2), .on 0 .pop,
      .on 0 (.lookup 1),
      .on 0 (.lookup 2), .on 0 (.assign 3 .null)]
    (ScopeWorld.keeper.run uses .empty).1 = [.done, .done, .assigned true, .assigned true,
      .found (some (.bool false)), .found (some .void), .found (some (.bool true)), .done,
      .found (some (.bool true)),
      .found (some .null), .assigned false] := by
  intro uses
  obtain ⟨hlinked, hplain, -⟩ := environments_are_map_stacks uses
  rw [hlinked, ← hplain]
  rfl

end ExprTree
