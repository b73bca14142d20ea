import ExprTree.Proofs.Environment

/-! What a closure finds of the environment that it was made in: for each parameter the value of the
innermost frame that binds it. -/
namespace ExprTree

namespace Slots

variable {b c : Slots} {i j : Nat} {v : Value}

theorem get?_set : (b.set i v).get? j = if i = j then some v else b.get? j := by
  induction b with
  | nil => simp [set, get?]
  | cons p b ih =>
    obtain ⟨k, w⟩ := p
    by_cases hk : k = i
    · subst hk
      by_cases hj : k = j <;> simp [set, get?, hj]
    · by_cases hj : k = j
      · subst hj
        simp [set, get?, hk, Ne.symm hk]
      · simp [set, get?, hj, hk, ih]

theorem get?_append : Slots.get? i (b ++ c) = (b.get? i).or (c.get? i) := by
  induction b with
  | nil => simp [get?]
  | cons p b ih =>
    obtain ⟨k, w⟩ := p
    by_cases hk : k = i <;> simp [get?, hk, ih]

theorem get?_filter {p : Nat → Bool} :
    Slots.get? i (b.filter fun (k, _) => p k) = if p i then b.get? i else none := by
  induction b with
  | nil => simp [get?]
  | cons q b ih =>
    obtain ⟨k, w⟩ := q
    by_cases hk : k = i
    · subst hk
      by_cases hp : p k <;> simp [get?, hp, ih]
    · by_cases hp : p k <;> simp [get?, hp, hk, ih]

theorem get?_overlay : (b.overlay c).get? i = (b.get? i).or (c.get? i) := by
  have hf := get?_filter (i := i) (b := c) (p := fun j => (b.get? j).isNone)
  unfold overlay
  rw [get?_append, hf]
  cases b.get? i <;> rfl

/-- No parameter is bound twice. -/
def Distinct (b : Slots) : Prop := b.ids.Nodup

theorem distinct_set (h : b.Distinct) : (b.set i v).Distinct := by
  induction b with
  | nil => simp [set, Distinct]
  | cons p b ih =>
    obtain ⟨k, w⟩ := p
    obtain ⟨hk, hb⟩ := List.nodup_cons.mp h
    by_cases hi : k = i
    · simpa [set, hi, Distinct] using h
    · have hki : k ∉ (Slots.set i v b).ids := by
        rw [mem_ids_set]
        exact fun h => h.elim hi hk
      simpa [set, hi, Distinct] using ⟨hki, ih hb⟩

theorem distinct_ofBindings : (ofBindings b).Distinct := by
  suffices ∀ f : Slots, f.Distinct → (b.foldl (fun f (i, v) => f.set i v) f).Distinct from
    this [] List.nodup_nil
  induction b with
  | nil => exact fun f h => h
  | cons p b ih => exact fun f h => ih _ (distinct_set h)

theorem distinct_overlay (hb : b.Distinct) (hc : c.Distinct) : (b.overlay c).Distinct := by
  unfold Distinct overlay ids
  rw [List.map_append, List.nodup_append]
  refine ⟨hb, hc.sublist (List.filter_sublist.map _), ?_⟩
  rintro i hi j hj rfl
  obtain ⟨⟨k, w⟩, hk, rfl⟩ := List.mem_map.mp hj
  obtain ⟨v, hv⟩ := get?_of_mem_ids hi
  simp [List.mem_filter, hv] at hk

/-- Bindings of distinct parameters are found where they were put. -/
theorem get?_ofBindings (h : b.Distinct) : (ofBindings b).get? i = b.get? i := by
  suffices ∀ f : Slots, (b.foldl (fun f (i, v) => f.set i v) f).get? i = (b.get? i).or (f.get? i) by
    exact (this []).trans (by simp [get?])
  induction b with
  | nil => exact fun f => rfl
  | cons p b ih =>
    intro f
    obtain ⟨k, w⟩ := p
    obtain ⟨hk, hb⟩ := List.nodup_cons.mp h
    rw [List.foldl_cons, ih hb, get?_set]
    by_cases hi : k = i
    · subst hi
      have hn : get? k b = none :=
        Option.not_isSome_iff_eq_none.mp fun h => hk (get?_isSome_iff.mp h)
      simp [get?, hn]
    · simp [get?, hi]

end Slots

namespace Environment

variable {d e : Environment} {bs : Slots} {i : Nat}

/-- Each frame binds a parameter once, as a map does. -/
def Distinct (e : Environment) : Prop := ∀ ids ∈ e.shape, ids.Nodup

theorem distinct_iff : e.Distinct ↔ (∀ f ∈ e.inner, f.Distinct) ∧ e.bottom.Distinct := by
  simp [Distinct, shape, frames, or_imp, forall_and, Slots.Distinct]

theorem Distinct.of_shape (h : e.Distinct) (hs : d.shape = e.shape) : d.Distinct := by
  unfold Distinct
  rw [hs]
  exact h

theorem distinct_ofCaptures : (ofCaptures bs).Distinct := by
  rw [distinct_iff]
  exact ⟨nofun, Slots.distinct_ofBindings⟩

theorem Distinct.push_defineAll (h : e.Distinct) : (e.push.defineAll bs).Distinct := by
  rw [distinct_iff] at h
  rw [Environment.push_defineAll, distinct_iff]
  obtain ⟨hi, hb⟩ := h
  exact ⟨List.forall_mem_cons.mpr ⟨Slots.distinct_ofBindings, hi⟩, hb⟩

theorem get?_capture : e.capture.get? i = e.lookup i := by
  unfold capture lookup
  induction e.inner with
  | nil => simp
  | cons f fs ih =>
    rw [List.foldr_cons, Slots.get?_overlay, ih, List.findSome?_cons]
    cases f.get? i <;> simp

theorem Distinct.capture (h : e.Distinct) : e.capture.Distinct := by
  rw [distinct_iff] at h
  obtain ⟨hi, hb⟩ := h
  unfold Environment.capture
  generalize e.inner = fs at hi
  induction fs with
  | nil => exact hb
  | cons f fs ih =>
    obtain ⟨hf, hfs⟩ := List.forall_mem_cons.mp hi
    exact Slots.distinct_overlay hf (ih hfs)

/-- An environment over captured values finds what was visible where they were captured. -/
theorem lookup_ofCaptures (h : e.Distinct) : (ofCaptures e.capture).lookup i = e.lookup i :=
  (Slots.get?_ofBindings h.capture).trans get?_capture

/-! ### What one binding leaves of the others -/

theorem lookup_push_defineAll (h : i ∉ bs.ids) : (e.push.defineAll bs).lookup i = e.lookup i := by
  have hn : (Slots.ofBindings bs).get? i = none := by
    rw [← Option.not_isSome_iff_eq_none, Slots.get?_isSome_iff, Slots.mem_ids_ofBindings]
    exact h
  rw [Environment.push_defineAll, lookup, lookup, List.findSome?_cons, hn]

/-- A frame that does not bind the parameter does not hide it either. -/
theorem lookup_pop (hs : d.shape = (e.push.defineAll bs).shape) (h : i ∉ bs.ids) :
    d.pop.lookup i = d.lookup i := by
  rw [Environment.push_defineAll, shape_eq_iff] at hs
  obtain ⟨inner, bottom⟩ := d
  cases inner with
  | nil => rfl
  | cons f fs =>
    have hf : f.ids = (Slots.ofBindings bs).ids := (List.cons.inj hs.1).1
    have hn : f.get? i = none := by
      rw [← Option.not_isSome_iff_eq_none, Slots.get?_isSome_iff, hf, Slots.mem_ids_ofBindings]
      exact h
    simp only [pop, lookup, List.tail_cons, List.findSome?_cons, hn]

theorem findSome?_assignIn {j : Nat} {v : Value} {fs gs : List Slots}
    (h : assignIn j v fs = some gs) (hi : j ≠ i) :
    gs.findSome? (·.get? i) = fs.findSome? (·.get? i) := by
  induction fs generalizing gs with
  | nil => cases h
  | cons f fs ih =>
    rw [assignIn] at h
    split at h
    · cases h
      rw [List.findSome?_cons, List.findSome?_cons, Slots.get?_set, if_neg hi]
    · obtain ⟨gs, hgs, rfl⟩ := Option.map_eq_some_iff.mp h
      rw [List.findSome?_cons, List.findSome?_cons, ih hgs]

theorem lookup_assign? {j : Nat} {v : Value} (h : e.assign? j v = some d) (hi : j ≠ i) :
    d.lookup i = e.lookup i := by
  unfold assign? at h
  rcases hin : assignIn j v e.inner with _ | fs
  · simp only [hin, Option.ite_none_right_eq_some, Option.some.injEq] at h
    rw [← h.2, lookup, lookup, Slots.get?_set, if_neg hi]
  · simp only [hin, Option.some.injEq] at h
    rw [← h, lookup, lookup, findSome?_assignIn hin hi]

end Environment

end ExprTree
