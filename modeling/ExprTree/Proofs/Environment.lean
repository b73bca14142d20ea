import ExprTree.Environment

/-! Which parameters the frames of an environment bind and to what values. Assigning changes values
only; a frame that is pushed, filled and popped leaves the frames below as they were. -/
namespace ExprTree

namespace Slots

variable {b c : Slots} {i j : Nat} {v w : Value}

/-- The parameters bound, in the order of their slots. -/
def ids (b : Slots) : List Nat := b.map Prod.fst

@[simp] theorem ids_nil : ids [] = [] := rfl

@[simp] theorem ids_cons {p : Nat × Value} : ids (p :: b) = p.1 :: ids b := rfl

theorem mem_ids : i ∈ b.ids ↔ ∃ v, (i, v) ∈ b := by
  simp [ids]

theorem get?_of_mem_ids (h : i ∈ b.ids) : ∃ v, b.get? i = some v := by
  induction b with
  | nil => simp at h
  | cons p b ih =>
    obtain ⟨j, w⟩ := p
    by_cases hj : j = i
    · exact ⟨w, by simp [get?, hj]⟩
    · obtain ⟨v, hv⟩ := ih (by simpa [Ne.symm hj] using h)
      exact ⟨v, by simp [get?, hj, hv]⟩

theorem mem_of_get? (h : b.get? i = some v) : (i, v) ∈ b := by
  induction b with
  | nil => simp [get?] at h
  | cons p b ih =>
    obtain ⟨j, w⟩ := p
    by_cases hj : j = i
    · simp_all [get?]
    · simp only [get?, hj, if_false] at h
      exact List.mem_cons_of_mem _ (ih h)

theorem get?_isSome_iff : (b.get? i).isSome ↔ i ∈ b.ids := by
  constructor
  · intro h
    obtain ⟨v, hv⟩ := Option.isSome_iff_exists.mp h
    rw [mem_ids]
    exact ⟨v, mem_of_get? hv⟩
  · intro h
    obtain ⟨v, hv⟩ := get?_of_mem_ids h
    simp [hv]

/-- Binding again what is bound keeps the slots in place. -/
theorem ids_set_of_mem (h : i ∈ b.ids) : (b.set i v).ids = b.ids := by
  induction b with
  | nil => simp at h
  | cons p b ih =>
    obtain ⟨j, w⟩ := p
    by_cases hj : j = i
    · simp [set, hj]
    · simp [set, hj, ih (by simpa [Ne.symm hj] using h)]

theorem mem_ids_set : j ∈ (b.set i v).ids ↔ j = i ∨ j ∈ b.ids := by
  induction b with
  | nil => simp [set]
  | cons p b ih =>
    obtain ⟨k, w⟩ := p
    by_cases hk : k = i
    · simp [set, hk]
    · simp only [set, hk, if_false, ids_cons, List.mem_cons, ih]
      exact or_left_comm

theorem mem_of_mem_set (h : (j, w) ∈ b.set i v) : (j = i ∧ w = v) ∨ (j, w) ∈ b := by
  induction b with
  | nil => simp_all [set]
  | cons p b ih =>
    obtain ⟨k, u⟩ := p
    by_cases hk : k = i
    · simp only [set, hk, if_true, List.mem_cons, Prod.mk.injEq] at h
      exact h.imp id (List.mem_cons_of_mem _)
    · simp only [set, hk, if_false, List.mem_cons] at h
      rcases h with h | h
      · exact Or.inr (by simp [h])
      · exact (ih h).imp id (List.mem_cons_of_mem _)

/-- The frame that bindings make, the last one of a parameter winning. -/
def ofBindings (bs : Slots) : Slots := bs.foldl (fun f (i, v) => f.set i v) []

theorem mem_ids_ofBindings : i ∈ (ofBindings b).ids ↔ i ∈ b.ids := by
  suffices ∀ f : Slots, i ∈ (b.foldl (fun f (i, v) => f.set i v) f).ids ↔ i ∈ f.ids ∨ i ∈ b.ids by
    simpa [ofBindings] using this []
  induction b with
  | nil => simp
  | cons p b ih =>
    intro f
    simp only [List.foldl_cons, ih, mem_ids_set, ids_cons, List.mem_cons]
    grind

theorem mem_of_mem_ofBindings (h : (i, v) ∈ ofBindings b) : (i, v) ∈ b := by
  suffices ∀ f : Slots, (i, v) ∈ b.foldl (fun f (i, v) => f.set i v) f → (i, v) ∈ f ∨ (i, v) ∈ b by
    simpa using this [] h
  clear h
  induction b with
  | nil => simp
  | cons p b ih =>
    intro f h
    rcases ih _ h with h | h
    · rcases mem_of_mem_set h with ⟨rfl, rfl⟩ | h
      · exact Or.inr (by simp)
      · exact Or.inl h
    · exact Or.inr (List.mem_cons_of_mem _ h)

theorem mem_of_mem_overlay (h : (i, v) ∈ b.overlay c) : (i, v) ∈ b ∨ (i, v) ∈ c := by
  simp only [overlay, List.mem_append, List.mem_filter] at h
  exact h.imp id And.left

theorem mem_ids_overlay : i ∈ (b.overlay c).ids ↔ i ∈ b.ids ∨ i ∈ c.ids := by
  constructor
  · intro h
    rw [mem_ids] at h
    obtain ⟨v, hv⟩ := h
    rw [mem_ids, mem_ids]
    exact (mem_of_mem_overlay hv).imp (fun h => ⟨v, h⟩) fun h => ⟨v, h⟩
  · intro h
    by_cases hb : i ∈ b.ids
    · rw [mem_ids] at hb ⊢
      obtain ⟨v, hv⟩ := hb
      exact ⟨v, List.mem_append_left _ hv⟩
    · have hc := h.resolve_left hb
      rw [mem_ids] at hc ⊢
      obtain ⟨v, hv⟩ := hc
      have hn : (b.get? i).isNone := by
        simpa [← get?_isSome_iff, Option.not_isSome_iff_eq_none] using hb
      exact ⟨v, List.mem_append_right _ (List.mem_filter.mpr ⟨hv, by simpa using hn⟩)⟩

end Slots

namespace Environment

variable {d e : Environment} {bs : Slots} {i j : Nat} {v w : Value}

/-- The frames, innermost first. -/
def frames (e : Environment) : List Slots := e.inner ++ [e.bottom]

/-- Which parameters each frame binds. -/
def shape (e : Environment) : List (List Nat) := e.frames.map Slots.ids

/-- Some frame binds the parameter. -/
def Binds (e : Environment) (i : Nat) : Prop := ∃ ids ∈ e.shape, i ∈ ids

/-- Some frame binds the parameter to the value, which an inner frame may hide. -/
def Entry (e : Environment) (i : Nat) (v : Value) : Prop := ∃ f ∈ e.frames, (i, v) ∈ f

theorem shape_eq_iff : d.shape = e.shape ↔
    d.inner.map Slots.ids = e.inner.map Slots.ids ∧ d.bottom.ids = e.bottom.ids := by
  simp [shape, frames, List.append_singleton_inj]

theorem depth_eq_of_shape (h : d.shape = e.shape) : d.depth = e.depth := by
  have hl := congrArg List.length h
  simpa [shape, frames, depth] using hl

theorem binds_iff : e.Binds i ↔ (∃ f ∈ e.inner, i ∈ f.ids) ∨ i ∈ e.bottom.ids := by
  simp only [Binds, shape, frames, List.map_append, List.mem_append, List.mem_map]
  constructor
  · rintro ⟨_, ⟨f, hf, rfl⟩ | ⟨f, hf, rfl⟩, hi⟩
    · exact Or.inl ⟨f, hf, hi⟩
    · exact Or.inr (List.mem_singleton.mp hf ▸ hi)
  · rintro (⟨f, hf, hi⟩ | hi)
    · exact ⟨f.ids, Or.inl ⟨f, hf, rfl⟩, hi⟩
    · exact ⟨e.bottom.ids, Or.inr ⟨_, List.mem_singleton_self _, rfl⟩, hi⟩

theorem entry_iff : e.Entry i v ↔ (∃ f ∈ e.inner, (i, v) ∈ f) ∨ (i, v) ∈ e.bottom := by
  simp [Entry, frames, or_and_right, exists_or]

theorem lookup_of_binds (h : e.Binds i) : ∃ v, e.lookup i = some v := by
  rw [← Option.isSome_iff_exists, lookup, Option.isSome_or]
  rcases binds_iff.mp h with ⟨f, hf, hi⟩ | hi
  · have : (e.inner.findSome? (·.get? i)).isSome := by
      rw [List.findSome?_isSome_iff]
      exact ⟨f, hf, Slots.get?_isSome_iff.mpr hi⟩
    simp [this]
  · simp [Slots.get?_isSome_iff.mpr hi]

theorem entry_of_lookup (h : e.lookup i = some v) : e.Entry i v := by
  rw [entry_iff]
  rw [lookup, Option.or_eq_some_iff] at h
  rcases h with h | ⟨_, h⟩
  · obtain ⟨f, hf, hv⟩ := List.exists_of_findSome?_eq_some h
    exact Or.inl ⟨f, hf, Slots.mem_of_get? hv⟩
  · exact Or.inr (Slots.mem_of_get? h)

/-! ### Pushing and popping -/

theorem push_defineAll :
    e.push.defineAll bs = { e with inner := Slots.ofBindings bs :: e.inner } := by
  suffices ∀ f : Slots, (⟨f :: e.inner, e.bottom⟩ : Environment).defineAll bs =
      ⟨bs.foldl (fun f (i, v) => f.set i v) f :: e.inner, e.bottom⟩ from this []
  unfold defineAll
  induction bs with
  | nil => intro f; rfl
  | cons p bs ih => intro f; exact ih (f.set p.1 p.2)

theorem binds_push_defineAll : (e.push.defineAll bs).Binds i ↔ i ∈ bs.ids ∨ e.Binds i := by
  simp [push_defineAll, binds_iff, Slots.mem_ids_ofBindings, or_assoc]

theorem entry_push_defineAll (h : (e.push.defineAll bs).Entry i v) : (i, v) ∈ bs ∨ e.Entry i v := by
  simp only [push_defineAll, entry_iff, List.mem_cons, exists_eq_or_imp, or_assoc] at h ⊢
  exact h.imp Slots.mem_of_mem_ofBindings id

theorem shape_pop (h : d.shape = (e.push.defineAll bs).shape) : d.pop.shape = e.shape := by
  rw [push_defineAll, shape_eq_iff] at h
  rw [shape_eq_iff]
  refine ⟨?_, h.2⟩
  have := congrArg List.tail h.1
  simpa [pop, List.map_tail] using this

theorem entry_of_pop (h : e.pop.Entry i v) : e.Entry i v := by
  rw [entry_iff] at h ⊢
  rcases h with ⟨f, hf, hv⟩ | hv
  · exact Or.inl ⟨f, List.mem_of_mem_tail hf, hv⟩
  · exact Or.inr hv

/-! ### Capturing -/

theorem ofCaptures_eq : ofCaptures bs = ⟨[], Slots.ofBindings bs⟩ := rfl

theorem binds_ofCaptures : (ofCaptures bs).Binds i ↔ i ∈ bs.ids := by
  simp [ofCaptures_eq, binds_iff, Slots.mem_ids_ofBindings]

theorem mem_of_entry_ofCaptures (h : (ofCaptures bs).Entry i v) : (i, v) ∈ bs := by
  simp only [ofCaptures_eq, entry_iff, List.not_mem_nil, false_and, exists_false, false_or] at h
  exact Slots.mem_of_mem_ofBindings h

theorem entry_of_mem_capture (h : (i, v) ∈ e.capture) : e.Entry i v := by
  rw [entry_iff]
  unfold capture at h
  generalize e.bottom = b at *
  generalize e.inner = fs at *
  induction fs with
  | nil => exact Or.inr h
  | cons f fs ih =>
    rcases Slots.mem_of_mem_overlay h with h | h
    · exact Or.inl ⟨f, by simp, h⟩
    · exact (ih h).imp (fun ⟨g, hg, hv⟩ => ⟨g, List.mem_cons_of_mem _ hg, hv⟩) id

/-- All that is visible is captured. -/
theorem mem_ids_capture : i ∈ e.capture.ids ↔ e.Binds i := by
  rw [binds_iff]
  unfold capture
  generalize e.bottom = b
  induction e.inner with
  | nil => simp
  | cons f fs ih =>
    simp only [List.foldr_cons, Slots.mem_ids_overlay, ih, List.mem_cons,
      exists_eq_or_imp, or_assoc]

/-! ### Assigning -/

theorem assignIn_spec {fs gs : List Slots} (h : assignIn i v fs = some gs) :
    gs.map Slots.ids = fs.map Slots.ids ∧
      ∀ g ∈ gs, ∀ j w, (j, w) ∈ g → (j = i ∧ w = v) ∨ ∃ f ∈ fs, (j, w) ∈ f := by
  induction fs generalizing gs with
  | nil => simp [assignIn] at h
  | cons f fs ih =>
    by_cases hf : (f.get? i).isSome
    · simp only [assignIn, hf, if_true, Option.some.injEq] at h
      subst h
      refine ⟨by simp [Slots.ids_set_of_mem (Slots.get?_isSome_iff.mp hf)], ?_⟩
      intro g hg j w hw
      rcases List.mem_cons.mp hg with rfl | hg
      · exact (Slots.mem_of_mem_set hw).imp id fun hw => ⟨f, by simp, hw⟩
      · exact Or.inr ⟨g, List.mem_cons_of_mem _ hg, hw⟩
    · simp only [assignIn, hf, Bool.false_eq_true, if_false, Option.map_eq_some_iff] at h
      obtain ⟨hs, h, rfl⟩ := h
      obtain ⟨hids, hmem⟩ := ih h
      refine ⟨by simp [hids], ?_⟩
      intro g hg j w hw
      rcases List.mem_cons.mp hg with rfl | hg
      · exact Or.inr ⟨g, by simp, hw⟩
      · exact (hmem g hg j w hw).imp id fun ⟨k, hk, hw⟩ => ⟨k, List.mem_cons_of_mem _ hk, hw⟩

theorem assignIn_isSome {fs : List Slots} : (assignIn i v fs).isSome ↔ ∃ f ∈ fs, i ∈ f.ids := by
  induction fs with
  | nil => simp [assignIn]
  | cons f fs ih =>
    by_cases hf : (f.get? i).isSome
    · simp [assignIn, hf, Slots.get?_isSome_iff.mp hf]
    · have hi : i ∉ f.ids := fun hi => hf (Slots.get?_isSome_iff.mpr hi)
      simp [assignIn, hf, hi, ih]

theorem assign?_of_binds (h : e.Binds i) : ∃ d, e.assign? i v = some d := by
  rcases hin : assignIn i v e.inner with _ | fs
  · have hb : i ∈ e.bottom.ids := by
      rcases binds_iff.mp h with hi | hi
      · simp [← assignIn_isSome (v := v), hin] at hi
      · exact hi
    simp [assign?, hin, Slots.get?_isSome_iff.mpr hb]
  · simp [assign?, hin]

/-- Assigning keeps the frames and what they bind, and only the new value may come in. -/
theorem assign?_spec (h : e.assign? i v = some d) :
    d.shape = e.shape ∧ ∀ j w, d.Entry j w → (j = i ∧ w = v) ∨ e.Entry j w := by
  unfold assign? at h
  simp only [entry_iff]
  rcases hin : assignIn i v e.inner with _ | fs
  · rw [hin] at h
    by_cases hb : (e.bottom.get? i).isSome
    · simp only [hb, if_true, Option.some.injEq] at h
      subst h
      refine ⟨shape_eq_iff.mpr ⟨rfl, Slots.ids_set_of_mem (Slots.get?_isSome_iff.mp hb)⟩, ?_⟩
      rintro j w (hw | hw)
      · exact Or.inr (Or.inl hw)
      · exact (Slots.mem_of_mem_set hw).imp id Or.inr
    · simp [hb] at h
  · simp only [hin, Option.some.injEq] at h
    subst h
    obtain ⟨hids, hmem⟩ := assignIn_spec hin
    refine ⟨shape_eq_iff.mpr ⟨hids, rfl⟩, ?_⟩
    rintro j w (⟨g, hg, hw⟩ | hw)
    · exact (hmem g hg j w hw).imp id Or.inl
    · exact Or.inr (Or.inr hw)

end Environment

end ExprTree
