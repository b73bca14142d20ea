import ExprTree.Proofs.Capture
import ExprTree.Eval.Monad
import ExprTree.Operator.Element

/-! What a single write changes: one slot of one frame, or one element of one array. -/
namespace ExprTree

namespace Environment

variable {e d : Environment} {fs gs : List Slots} {i j k : Nat} {v : Value}

/-- The slot of a frame, the innermost frame being the first. -/
def slot? (e : Environment) (frame id : Nat) : Option Value := e.frames[frame]?.bind (·.get? id)

theorem lookup_eq_findSome? : e.lookup i = e.frames.findSome? (·.get? i) := by
  rw [lookup, frames, List.findSome?_append]
  cases h : e.bottom.get? i <;> simp [h]

/-- The frame that is assigned to is the first one with the parameter. -/
theorem assignIn_eq_set (h : assignIn i v fs = some gs) :
    ∃ k f, fs[k]? = some f ∧ (f.get? i).isSome ∧
    gs = fs.set k (f.set i v) ∧ ∀ g ∈ fs.take k, g.get? i = none := by
  induction fs generalizing gs with
  | nil => cases h
  | cons f fs ih =>
    rw [assignIn] at h
    split at h
    · rename_i hf
      cases h
      exact ⟨0, f, rfl, hf, rfl, List.forall_mem_nil _⟩
    · rename_i hf
      obtain ⟨gs, hgs, rfl⟩ := Option.map_eq_some_iff.mp h
      obtain ⟨k, f', hk, hf', rfl, hbefore⟩ := ih hgs
      refine ⟨k + 1, f', hk, hf', rfl, ?_⟩
      rw [List.take_succ_cons]
      exact List.forall_mem_cons.mpr ⟨Option.not_isSome_iff_eq_none.mp hf, hbefore⟩

theorem assignIn_none (h : assignIn i v fs = none) : ∀ g ∈ fs, g.get? i = none := by
  intro g hg
  rw [← Option.not_isSome_iff_eq_none]
  intro hsome
  have hin := assignIn_isSome (v := v).mpr ⟨g, hg, Slots.get?_isSome_iff.mp hsome⟩
  rw [h] at hin
  cases hin

theorem assign?_eq_set (h : e.assign? i v = some d) :
    ∃ k f, e.frames[k]? = some f ∧ (f.get? i).isSome ∧
    d.frames = e.frames.set k (f.set i v) ∧ ∀ g ∈ e.frames.take k, g.get? i = none := by
  unfold assign? at h
  rcases hin : assignIn i v e.inner with _ | fs
  · simp only [hin, Option.ite_none_right_eq_some, Option.some.injEq] at h
    obtain ⟨hb, rfl⟩ := h
    refine ⟨e.inner.length, e.bottom, by simp [frames], hb, by simp [frames], ?_⟩
    simpa [frames] using assignIn_none hin
  · simp only [hin, Option.some.injEq] at h
    subst h
    obtain ⟨k, f, hk, hf, rfl, hbefore⟩ := assignIn_eq_set hin
    have hlt : k < e.inner.length := (List.getElem?_eq_some_iff.mp hk).1
    refine ⟨k, f, ?_, hf, ?_, ?_⟩
    · rw [frames, List.getElem?_append_left hlt, hk]
    · rw [frames, frames, List.set_append_left _ _ hlt]
    · rw [frames, List.take_append_of_le_length (Nat.le_of_lt hlt)]
      exact hbefore

/-- One slot is written: that of the first frame with the parameter, which is then the one seen. -/
theorem assign?_slots (h : e.assign? i v = some d) : d.lookup i = some v ∧
    ∃ k, (∀ j < k, e.slot? j i = none) ∧ (e.slot? k i).isSome ∧ d.slot? k i = some v ∧
      ∀ j id, (j, id) ≠ (k, i) → d.slot? j id = e.slot? j id := by
  obtain ⟨k, f, hk, hf, hd, hbefore⟩ := assign?_eq_set h
  have hlt : k < e.frames.length := (List.getElem?_eq_some_iff.mp hk).1
  have hset : d.slot? k i = some v := by
    rw [slot?, hd, List.getElem?_set_self hlt, Option.bind_some, Slots.get?_set, if_pos rfl]
  refine ⟨?_, k, fun j hj => ?_, by simpa [slot?, hk] using hf, hset, fun j id hne => ?_⟩
  · rw [lookup_eq_findSome?, hd, List.set_eq_take_append_cons_drop, if_pos hlt,
      List.findSome?_append, List.findSome?_eq_none_iff.mpr hbefore, List.findSome?_cons,
      Slots.get?_set, if_pos rfl]
    rfl
  · rw [slot?, Option.bind_eq_none_iff]
    intro g hg
    exact hbefore g (List.mem_of_getElem? ((List.getElem?_take_of_lt hj).trans hg))
  · rw [slot?, slot?, hd]
    by_cases hj : j = k
    · subst hj
      have hi : i ≠ id := fun hi => hne (by rw [hi])
      rw [List.getElem?_set_self hlt, hk, Option.bind_some, Option.bind_some,
        Slots.get?_set, if_neg hi]
    · rw [List.getElem?_set_ne (Ne.symm hj)]

end Environment

namespace Store

variable {s : Store} {addr position a i : Nat} {v : Value}

theorem arrayItems_setArrayItem : (s.setArrayItem addr position v).arrayItems a =
    if addr = a then (s.arrayItems a).setIfInBounds position v else s.arrayItems a := by
  rw [setArrayItem, arrayItems, setItem, Array.getElem?_modify, arrayItems]
  split
  · cases s.arrays[a]? <;> rfl
  · rfl

/-- One element is written. -/
theorem setArrayItem_items (h : position < (s.arrayItems addr).size) :
    ((s.setArrayItem addr position v).arrayItems addr)[position]? = some v ∧
      ∀ a i, (a, i) ≠ (addr, position) →
        ((s.setArrayItem addr position v).arrayItems a)[i]? = (s.arrayItems a)[i]? := by
  refine ⟨?_, fun a i hne => ?_⟩
  · rw [arrayItems_setArrayItem, if_pos rfl, Array.getElem?_setIfInBounds_self_of_lt h]
  · rw [arrayItems_setArrayItem]
    split
    · rename_i ha
      subst ha
      have hi : position ≠ i := fun hi => hne (by rw [hi])
      rw [Array.getElem?_setIfInBounds_ne hi]
    · rfl

end Store

/-! ### States -/

namespace State

/-- The one slot is written, in the first frame that binds the parameter, and the parameter now has
the value. -/
structure SlotSet (u : State) (id : Nat) (v : Value) (t : State) : Prop where
  other : t = { u with env := t.env }
  seen : t.env.lookup id = some v
  slots : ∃ k, (∀ j < k, u.env.slot? j id = none) ∧ (u.env.slot? k id).isSome ∧
    t.env.slot? k id = some v ∧
    ∀ j i, (j, i) ≠ (k, id) → t.env.slot? j i = u.env.slot? j i

/-- The one element is written, and whoever reads it through an array value with the address finds
the value. -/
structure ElementSet (u : State) (addr position : Nat) (v : Value) (t : State) : Prop where
  other : t = { u with store := { u.store with arrays := t.store.arrays } }
  seen : ∀ (elem : Ty) (index : Value), index.index? = some (position : Int) →
    (Value.element t.store (.array elem addr) index >>= fun x => t.store.readElement x.1 x.2) =
      .ok v
  items : ∀ a i, (a, i) ≠ (addr, position) → (t.store.arrayItems a)[i]? = (u.store.arrayItems a)[i]?

/-- Nothing is written; an exception object may be made. -/
def Raised (u t : State) : Prop :=
  t = u ∨ ∃ c message, t = { u with store := (u.store.newException c message).2 }

variable {u t : State} {id addr position : Nat} {v : Value}

theorem Raised.env_eq (h : u.Raised t) : t.env = u.env := by
  rcases h with rfl | ⟨c, message, rfl⟩ <;> rfl

theorem Raised.arrays_eq (h : u.Raised t) : t.store.arrays = u.store.arrays := by
  rcases h with rfl | ⟨c, message, rfl⟩ <;> rfl

theorem slotSet_of_assign? {env : Environment} (h : u.env.assign? id v = some env) :
    u.SlotSet id v { u with env } := by
  obtain ⟨hseen, hslots⟩ := Environment.assign?_slots h
  exact ⟨rfl, hseen, hslots⟩

theorem elementSet_of_lt (h : position < (u.store.arrayItems addr).size) :
    u.ElementSet addr position v { u with store := u.store.setArrayItem addr position v } := by
  obtain ⟨hseen, hitems⟩ := Store.setArrayItem_items (v := v) h
  refine ⟨rfl, fun elem index hi => ?_, hitems⟩
  have hlt : position < ((u.store.setArrayItem addr position v).arrayItems addr).size :=
    (Array.getElem?_eq_some_iff.mp hseen).1
  have helement : Value.element (u.store.setArrayItem addr position v) (.array elem addr) index =
      .ok (addr, position) := by
    simp only [Value.element, hi]
    rw [if_pos ⟨Int.natCast_nonneg _, Int.ofNat_lt.mpr hlt⟩, Int.toNat_natCast]
  simp only [helement]
  change Store.readElement _ addr position = _
  rw [Store.readElement, hseen]

end State

/-- An index that names an element has its position. -/
theorem Value.index_of_element {s : Store} {array index : Value} {addr position : Nat}
    (h : Value.element s array index = .ok (addr, position)) :
    (∃ elem, array = .array elem addr) ∧ index.index? = some (position : Int) := by
  unfold Value.element at h
  split at h
  · split at h
    · cases h
    · rename_i i hi
      dsimp only at h
      split at h
      · rename_i hrange
        cases h
        exact ⟨⟨_, rfl⟩, by rw [hi, Int.toNat_of_nonneg hrange.1]⟩
      · cases h
  · cases h
  · cases h

end ExprTree
