import ExprTree.Proofs.Writes
import Mathlib.Data.Finmap

/-! An environment stands for a stack of finite maps, and each operation on it for one on the stack.
What is done above an open scope is undone with it, but for assignments to what was bound before. -/
namespace ExprTree

inductive ScopeOp where
  | push | pop
  | define (id : Nat) (v : Value)
  | assign (id : Nat) (v : Value)
  | lookup (id : Nat)
  | capture | depth

/-- The values by parameter id, in no order. -/
abbrev SlotMap := Finmap fun _ : Nat => Value

inductive ScopeAnswer where
  | done
  | assigned (success : Bool)
  | found (v : Option Value)
  | captured (m : SlotMap)
  | counted (depth : Nat)

/-- A stack without its top, unless that is also its bottom. -/
def popped {α : Type} : List α → List α
  | _ :: x :: xs => x :: xs
  | xs => xs

theorem map_popped {α β : Type} {f : α → β} {xs : List α} :
    (popped xs).map f = popped (xs.map f) := by
  match xs with
  | [] | [_] | _ :: _ :: _ => rfl

/-- Finite maps, the innermost first. -/
abbrev MapStack := List SlotMap

namespace MapStack

/-- One map, the later bindings taking the place of the earlier ones. -/
def ofBindings (bs : Slots) : MapStack := [bs.foldl (fun m (i, v) => m.insert i v) ∅]

/-- The binding of the innermost map that has one. -/
def lookup (ms : MapStack) (i : Nat) : Option Value := ms.findSome? (·.lookup i)

/-- Binds in the innermost map. -/
def define (i : Nat) (v : Value) (ms : MapStack) : MapStack := ms.modifyHead (·.insert i v)

/-- Changes the binding that `lookup` finds. -/
def assign? (i : Nat) (v : Value) : MapStack → Option MapStack
  | [] => none
  | m :: ms =>
    if (m.lookup i).isSome then some (m.insert i v :: ms) else (assign? i v ms).map (m :: ·)

/-- The bindings of all maps, the inner ones before the outer ones. -/
def capture (ms : MapStack) : SlotMap := ms.foldr (· ∪ ·) ∅

def perform (ms : MapStack) : ScopeOp → ScopeAnswer × MapStack
  | .push => (.done, ∅ :: ms)
  | .pop => (.done, popped ms)
  | .define i v => (.done, ms.define i v)
  | .assign i v => match ms.assign? i v with
    | some ms => (.assigned true, ms)
    | none => (.assigned false, ms)
  | .lookup i => (.found (ms.lookup i), ms)
  | .capture => (.captured ms.capture, ms)
  | .depth => (.counted ms.length, ms)

/-- The stack after some operations. -/
def after (ms : MapStack) (ops : List ScopeOp) : MapStack :=
  ops.foldl (fun ms op => (ms.perform op).2) ms

end MapStack

namespace SlotMap

variable {m n : SlotMap} {i j : Nat} {v : Value}

theorem lookup_insert : (m.insert i v).lookup j = if i = j then some v else m.lookup j := by
  split
  · rename_i hj
    rw [hj, Finmap.lookup_insert]
  · rename_i hj
    rw [Finmap.lookup_insert_of_ne _ (Ne.symm hj)]

theorem lookup_union : (m ∪ n).lookup i = (m.lookup i).or (n.lookup i) := by
  by_cases hi : i ∈ m
  · rw [Finmap.lookup_union_left hi]
    obtain ⟨v, hv⟩ := Finmap.mem_iff.mp hi
    rw [hv, Option.some_or]
  · rw [Finmap.lookup_union_right hi, Finmap.lookup_eq_none.mpr hi, Option.none_or]

end SlotMap

namespace Slots

variable {b bs : Slots} {i : Nat} {v : Value}

def toMap (b : Slots) : SlotMap := b.foldr (fun p m => m.insert p.1 p.2) ∅

@[simp] theorem lookup_toMap : b.toMap.lookup i = b.get? i := by
  induction b with
  | nil => rfl
  | cons p b ih =>
    obtain ⟨k, w⟩ := p
    change ((toMap b).insert k w).lookup i = _
    rw [SlotMap.lookup_insert, ih, get?]

theorem toMap_set : (b.set i v).toMap = b.toMap.insert i v := by
  refine Finmap.ext_lookup fun j => ?_
  rw [lookup_toMap, get?_set, SlotMap.lookup_insert, lookup_toMap]

theorem toMap_ofBindings : (ofBindings bs).toMap = bs.foldl (fun m (i, v) => m.insert i v) ∅ := by
  suffices ∀ f : Slots, (bs.foldl (fun f (i, v) => f.set i v) f).toMap =
      bs.foldl (fun m (i, v) => m.insert i v) f.toMap from this []
  induction bs with
  | nil => exact fun f => rfl
  | cons p bs ih =>
    intro f
    rw [List.foldl_cons, List.foldl_cons, ih, toMap_set]

end Slots

namespace MapStack

variable {ms ns inner outer : MapStack} {m : SlotMap} {i j k : Nat} {v : Value} {op : ScopeOp}
  {ops : List ScopeOp}

theorem lookup_cons : lookup (m :: ms) i = (m.lookup i).or (ms.lookup i) := by
  rw [lookup, List.findSome?_cons]
  cases m.lookup i <;> rfl

theorem lookup_append : lookup (ms ++ ns) i = (ms.lookup i).or (ns.lookup i) :=
  List.findSome?_append

theorem lookup_capture : ms.capture.lookup i = ms.lookup i := by
  induction ms with
  | nil => rfl
  | cons m ms ih =>
    change (m ∪ capture ms).lookup i = _
    rw [SlotMap.lookup_union, ih, lookup_cons]

/-! ### Assigning -/

theorem assign?_isSome : (ms.assign? i v).isSome = (ms.lookup i).isSome := by
  induction ms with
  | nil => rfl
  | cons m ms ih =>
    rw [assign?, lookup_cons]
    split
    · rename_i hm
      rw [Option.isSome_or, hm, Bool.true_or, Option.isSome_some]
    · rename_i hm
      rw [Option.isSome_map, ih, Option.not_isSome_iff_eq_none.mp hm, Option.none_or]

/-- One map is changed, the one with the binding that was found. -/
theorem assign?_split (h : ms.assign? i v = some ns) :
    ∃ before m behind, ms = before ++ m :: behind ∧
    (∀ n ∈ before, n.lookup i = none) ∧ (m.lookup i).isSome ∧ m.lookup i = ms.lookup i ∧
    ns = before ++ m.insert i v :: behind := by
  induction ms generalizing ns with
  | nil => cases h
  | cons m ms ih =>
    rw [assign?] at h
    split at h
    · rename_i hm
      cases h
      refine ⟨[], m, ms, rfl, List.forall_mem_nil _, hm, ?_, rfl⟩
      obtain ⟨w, hw⟩ := Option.isSome_iff_exists.mp hm
      rw [lookup_cons, hw, Option.some_or]
    · rename_i hm
      obtain ⟨ns, hns, rfl⟩ := Option.map_eq_some_iff.mp h
      obtain ⟨before, n, behind, rfl, hbefore, hn, hfound, rfl⟩ := ih hns
      have hnone : m.lookup i = none := Option.not_isSome_iff_eq_none.mp hm
      refine ⟨m :: before, n, behind, rfl, List.forall_mem_cons.mpr ⟨hnone, hbefore⟩, hn, ?_, rfl⟩
      rw [lookup_cons, hnone, Option.none_or, hfound]

theorem lookup_assign? (h : ms.assign? i v = some ns) :
    ns.lookup j = if i = j then some v else ms.lookup j := by
  obtain ⟨before, m, behind, rfl, hbefore, -, -, rfl⟩ := assign?_split h
  rw [lookup_append, lookup_append, lookup_cons, lookup_cons, SlotMap.lookup_insert]
  split
  · rename_i hj
    rw [← hj, show lookup before i = none from List.findSome?_eq_none_iff.mpr hbefore,
      Option.none_or, Option.some_or]
  · rfl

theorem length_assign? (h : ms.assign? i v = some ns) : ns.length = ms.length := by
  obtain ⟨before, m, behind, rfl, -, -, -, rfl⟩ := assign?_split h
  simp

theorem assign?_append : (inner ++ outer).assign? i v =
    if (inner.lookup i).isSome then (inner.assign? i v).map (· ++ outer)
    else (outer.assign? i v).map (inner ++ ·) := by
  induction inner with
  | nil => simp [lookup]
  | cons m inner ih =>
    rw [List.cons_append, assign?, lookup_cons, assign?, ih]
    by_cases hm : (m.lookup i).isSome
    · simp [hm]
    · rw [if_neg hm, if_neg hm, Option.not_isSome_iff_eq_none.mp hm, Option.none_or]
      split <;> simp [Option.map_map, Function.comp_def]

/-! ### Scopes that were opened and are closed again -/

/-- How many scopes are open after the operation, of `n` that may be closed. -/
def opened : Nat → ScopeOp → Option Nat
  | n, .push => some (n + 1)
  | 0, .pop => none
  | n + 1, .pop => some n
  | n, _ => some n

def height : Nat → List ScopeOp → Option Nat
  | n, [] => some n
  | n, op :: ops => (opened n op).bind (height · ops)

/-- What an operation assigns below the inner maps: what they do not bind and the outer maps do. -/
def reached (inner outer : MapStack) : ScopeOp → Slots
  | .assign i v =>
    if (inner.lookup i).isSome then [] else if (outer.lookup i).isSome then [(i, v)] else []
  | _ => []

theorem reached_bound (h : ((reached inner outer op).get? j).isSome) : (outer.lookup j).isSome := by
  cases op with
  | assign i v =>
    rw [reached] at h
    split at h
    · cases h
    split at h
    · rename_i hi
      rw [Slots.get?] at h
      split at h
      · rename_i hj
        exact hj ▸ hi
      · cases h
    · cases h
  | _ => cases h

/-- What the operations assign below the inner maps and the scopes that they open, the last
first. -/
def writesBelow (outer : MapStack) : MapStack → List ScopeOp → Slots
  | _, [] => []
  | inner, op :: ops => writesBelow outer (inner.perform op).2 ops ++ reached inner outer op

theorem writesBelow_congr (h : ∀ i, (ms.lookup i).isSome = (ns.lookup i).isSome) :
    writesBelow ms inner ops = writesBelow ns inner ops := by
  induction ops generalizing inner with
  | nil => rfl
  | cons op ops ih =>
    have hop : reached inner ms op = reached inner ns op := by
      cases op with
      | assign i v => simp only [reached, h]
      | _ => rfl
    rw [writesBelow, writesBelow, ih, hop]

/-- The outer maps after an operation above them: as they were, but for what it assigned there. -/
def Kept (writes : Slots) (outer outer' : MapStack) : Prop :=
  outer'.length = outer.length ∧ ∀ i, outer'.lookup i = (writes.get? i).or (outer.lookup i)

theorem Kept.refl : Kept [] outer outer := ⟨rfl, fun _ => rfl⟩

theorem assign_append : ∃ outer', ((inner ++ outer).perform (.assign i v)).2 =
    (inner.perform (.assign i v)).2 ++ outer' ∧
    Kept (reached inner outer (.assign i v)) outer outer' := by
  have hin : (inner.assign? i v).isSome = (inner.lookup i).isSome := assign?_isSome
  have hout : (outer.assign? i v).isSome = (outer.lookup i).isSome := assign?_isSome
  simp only [perform, assign?_append, reached]
  by_cases hi : (inner.lookup i).isSome
  · obtain ⟨inner', ha⟩ := Option.isSome_iff_exists.mp (hin.trans hi)
    refine ⟨outer, ?_, ?_⟩
    · rw [if_pos hi, ha, Option.map_some]
    · rw [if_pos hi]
      exact .refl
  · have ha : inner.assign? i v = none := by rwa [← Option.not_isSome_iff_eq_none, hin]
    rw [if_neg hi, if_neg hi, ha, ← hout]
    cases hb : outer.assign? i v with
    | none => exact ⟨outer, rfl, .refl⟩
    | some outer' =>
      refine ⟨outer', rfl, length_assign? hb, fun j => ?_⟩
      rw [lookup_assign? hb]
      by_cases hj : i = j <;> simp [Slots.get?, hj]

theorem perform_append (outer : MapStack) (hin : inner ≠ [])
    (hpop : op = .pop → 2 ≤ inner.length) : ∃ outer',
    ((inner ++ outer).perform op).2 = (inner.perform op).2 ++ outer' ∧
      Kept (reached inner outer op) outer outer' := by
  cases op with
  | assign i v => exact assign_append
  | pop =>
    match inner, hpop rfl with
    | m :: n :: inner, _ => exact ⟨outer, rfl, .refl⟩
  | define i v =>
    match inner, hin with
    | m :: inner, _ => exact ⟨outer, rfl, .refl⟩
  | _ => exact ⟨outer, rfl, .refl⟩

theorem length_perform {n : Nat} (hms : ms.length = k + 1) (hop : opened k op = some n) :
    (ms.perform op).2.length = n + 1 ∧ (op = .pop → 2 ≤ ms.length) := by
  cases op with
  | pop =>
    match k, ms, hms with
    | _ + 1, _ :: _ :: ms, hms =>
      cases hop
      exact ⟨Nat.succ.inj hms, fun _ => by simp⟩
  | push =>
    cases hop
    exact ⟨congrArg Nat.succ hms, nofun⟩
  | define i v =>
    match ms, hms with
    | _ :: ms, hms =>
      cases hop
      exact ⟨hms, nofun⟩
  | assign i v =>
    cases hop
    refine ⟨?_, nofun⟩
    rw [perform]
    cases h : ms.assign? i v with
    | none => exact hms
    | some ns => exact (length_assign? h).trans hms
  | _ =>
    cases hop
    exact ⟨hms, nofun⟩

/-- So it is for operations that close no scope but those that they opened. -/
theorem after_append {n : Nat} (outer : MapStack) (hin : inner.length = k + 1)
    (hh : height k ops = some n) : ∃ outer',
    after (inner ++ outer) ops = after inner ops ++ outer' ∧ (after inner ops).length = n + 1 ∧
      Kept (writesBelow outer inner ops) outer outer' := by
  induction ops generalizing inner outer k with
  | nil =>
    cases hh
    exact ⟨outer, rfl, hin, .refl⟩
  | cons op ops ih =>
    obtain ⟨j, hj, hh⟩ := Option.bind_eq_some_iff.mp hh
    obtain ⟨hlength, hpop⟩ := length_perform hin hj
    obtain ⟨outer₁, hstep, hsize₁, hfound₁⟩ :=
      perform_append outer (List.ne_nil_of_length_eq_add_one hin) hpop
    obtain ⟨outer₂, hafter, hsize, hlength₂, hfound₂⟩ := ih outer₁ hlength hh
    refine ⟨outer₂, ?_, hsize, hlength₂.trans hsize₁, fun i => ?_⟩
    · change after ((inner ++ outer).perform op).2 ops = _
      rw [hstep, hafter]
      rfl
    · have hbound (i : Nat) : (lookup outer₁ i).isSome = (outer.lookup i).isSome := by
        rw [hfound₁, Option.isSome_or, Bool.or_eq_right_iff_imp]
        exact reached_bound
      rw [hfound₂, hfound₁, writesBelow_congr hbound, writesBelow, Slots.get?_append,
        Option.or_assoc]

/-- A scope that is closed leaves what was there before it was opened, but for the assignments in
between to what was bound then. -/
theorem kept_after_pop (hh : height 0 ops = some 0) (hms : ms ≠ []) :
    Kept (writesBelow ms [∅] ops) ms (ms.after (.push :: ops ++ [.pop])) := by
  have hinner : List.length ([∅] : MapStack) = 0 + 1 := rfl
  obtain ⟨ms', hafter, hsize, hkept⟩ := after_append ms hinner hh
  obtain ⟨m, hm⟩ := List.length_eq_one_iff.mp hsize
  obtain ⟨n, ns, rfl⟩ := List.exists_cons_of_length_pos (hkept.1 ▸ List.length_pos_of_ne_nil hms)
  have hclosed : ms.after (.push :: ops ++ [.pop]) = n :: ns := by
    rw [after, List.foldl_append, List.foldl_cons]
    change popped (after ([∅] ++ ms) ops) = _
    rw [hafter, hm]
    rfl
  rw [hclosed]
  exact hkept

end MapStack

/-! ### Environments -/

namespace Environment

variable {e d : Environment} {bs : Slots} {i : Nat} {v : Value} {op : ScopeOp} {ops : List ScopeOp}

def perform (e : Environment) : ScopeOp → ScopeAnswer × Environment
  | .push => (.done, e.push)
  | .pop => (.done, e.pop)
  | .define i v => (.done, e.define i v)
  | .assign i v => match e.assign? i v with
    | some d => (.assigned true, d)
    | none => (.assigned false, e)
  | .lookup i => (.found (e.lookup i), e)
  | .capture => (.captured e.capture.toMap, e)
  | .depth => (.counted e.depth, e)

def after (e : Environment) (ops : List ScopeOp) : Environment :=
  ops.foldl (fun e op => (e.perform op).2) e

/-- The maps that the frames stand for. -/
def maps (e : Environment) : MapStack := e.frames.map Slots.toMap

theorem maps_ne_nil : e.maps ≠ [] := by
  simp [maps, frames]

theorem frames_pop : e.pop.frames = popped e.frames := by
  obtain ⟨inner, bottom⟩ := e
  match inner with
  | [] | [_] | _ :: _ :: _ => rfl

theorem frames_define : (e.define i v).frames = e.frames.modifyHead (Slots.set i v) := by
  obtain ⟨inner, bottom⟩ := e
  cases inner <;> rfl

theorem assignIn_append {fs gs : List Slots} : assignIn i v (fs ++ gs) =
    ((assignIn i v fs).map (· ++ gs)).or ((assignIn i v gs).map (fs ++ ·)) := by
  induction fs with
  | nil => simp [assignIn]
  | cons f fs ih =>
    rw [List.cons_append, assignIn, ih, assignIn]
    split
    · rfl
    · cases assignIn i v fs <;> simp [Function.comp_def]

theorem frames_assign? : (e.assign? i v).map frames = assignIn i v e.frames := by
  rw [frames, assignIn_append, assign?]
  cases assignIn i v e.inner with
  | some fs => rfl
  | none =>
    by_cases hb : (e.bottom.get? i).isSome <;> simp [assignIn, hb, frames]

theorem frames_capture : e.capture = e.frames.foldr Slots.overlay [] := by
  have hbottom : e.bottom.overlay [] = e.bottom := List.append_nil _
  rw [capture, frames, List.foldr_append, List.foldr_cons, List.foldr_nil, hbottom]

theorem lookup_maps : e.maps.lookup i = e.lookup i := by
  rw [lookup_eq_findSome?, MapStack.lookup, maps, List.findSome?_map]
  exact congrArg (List.findSome? · e.frames) (funext fun f => Slots.lookup_toMap)

theorem maps_pop : e.pop.maps = popped e.maps := by
  rw [maps, frames_pop, map_popped, maps]

theorem maps_define : (e.define i v).maps = e.maps.define i v := by
  rw [maps, frames_define, maps]
  cases e.frames with
  | nil => rfl
  | cons f fs => exact congrArg (· :: fs.map Slots.toMap) Slots.toMap_set

theorem maps_assign? : (e.assign? i v).map maps = e.maps.assign? i v := by
  have hframes (fs : List Slots) :
      (assignIn i v fs).map (List.map Slots.toMap) = MapStack.assign? i v (fs.map Slots.toMap) := by
    induction fs with
    | nil => rfl
    | cons f fs ih =>
      rw [assignIn, List.map_cons, MapStack.assign?, Slots.lookup_toMap]
      split
      · rw [Option.map_some, List.map_cons, Slots.toMap_set]
      · rw [← ih, Option.map_map, Option.map_map]
        rfl
  rw [maps, ← hframes, ← frames_assign?, Option.map_map]
  rfl

theorem capture_maps : e.maps.capture = e.capture.toMap := by
  refine Finmap.ext_lookup fun i => ?_
  rw [MapStack.lookup_capture, lookup_maps, Slots.lookup_toMap, get?_capture]

theorem maps_ofCaptures : (ofCaptures bs).maps = MapStack.ofBindings bs := by
  rw [ofCaptures_eq, MapStack.ofBindings, ← Slots.toMap_ofBindings]
  rfl

/-- Each operation is the one of the stack of maps. -/
theorem perform_maps : e.maps.perform op = ((e.perform op).1, (e.perform op).2.maps) := by
  cases op with
  | push => rfl
  | pop => exact Prod.ext rfl maps_pop.symm
  | define i v => exact Prod.ext rfl maps_define.symm
  | assign i v =>
    rw [MapStack.perform, ← maps_assign?, perform]
    cases e.assign? i v <;> rfl
  | lookup i => exact Prod.ext (congrArg ScopeAnswer.found lookup_maps) rfl
  | capture => exact Prod.ext (congrArg ScopeAnswer.captured capture_maps) rfl
  | depth => exact Prod.ext (congrArg ScopeAnswer.counted (by simp [maps, frames, depth])) rfl

theorem maps_after : (e.after ops).maps = e.maps.after ops := by
  induction ops generalizing e with
  | nil => rfl
  | cons op ops ih =>
    change ((e.perform op).2.after ops).maps = (e.maps.perform op).2.after ops
    rw [ih, perform_maps]

theorem Distinct.perform (h : e.Distinct) : (e.perform op).2.Distinct := by
  obtain ⟨hin, hbottom⟩ := distinct_iff.mp h
  cases op with
  | push => exact distinct_iff.mpr ⟨List.forall_mem_cons.mpr ⟨List.nodup_nil, hin⟩, hbottom⟩
  | pop => exact distinct_iff.mpr ⟨fun f hf => hin f (List.mem_of_mem_tail hf), hbottom⟩
  | define i v =>
    obtain ⟨inner, bottom⟩ := e
    cases inner with
    | nil => exact distinct_iff.mpr ⟨hin, Slots.distinct_set hbottom⟩
    | cons f fs =>
      obtain ⟨hf, hfs⟩ := List.forall_mem_cons.mp hin
      exact distinct_iff.mpr ⟨List.forall_mem_cons.mpr ⟨Slots.distinct_set hf, hfs⟩, hbottom⟩
  | assign i v =>
    rw [Environment.perform]
    cases ha : e.assign? i v with
    | none => exact h
    | some d => exact h.of_shape (assign?_spec ha).1
  | _ => exact h

/-- What its operations do to an environment and to the maps that it stands for. -/
structure Laws (e : Environment) : Prop where
  nonempty : e.maps ≠ []
  /-- What is found is the binding of the innermost map that has one. -/
  lookup (i : Nat) : e.lookup i = e.maps.findSome? (·.lookup i)
  define (i : Nat) (v : Value) : (e.define i v).maps = e.maps.modifyHead (·.insert i v)
  assigned (i : Nat) (v : Value) : (e.assign? i v).isSome = (e.lookup i).isSome
  /-- Only the binding that was found is changed. -/
  assign {i : Nat} {v : Value} {d : Environment} : e.assign? i v = some d → ∃ before m behind,
    e.maps = before ++ m :: behind ∧ (∀ n ∈ before, n.lookup i = none) ∧ (m.lookup i).isSome ∧
    m.lookup i = e.lookup i ∧ d.maps = before ++ m.insert i v :: behind
  bottom : e.maps.length = 1 → e.pop = e
  /-- After a scope was closed everything is found as before it was opened, but for the assignments
  in between to what was bound then. -/
  close {ops : List ScopeOp} : MapStack.height 0 ops = some 0 →
    (e.after (.push :: ops ++ [.pop])).depth = e.depth ∧
    ∀ i, (e.after (.push :: ops ++ [.pop])).lookup i =
      ((MapStack.writesBelow e.maps [∅] ops).get? i).or (e.lookup i)
  capture (i : Nat) : e.capture.toMap.lookup i = e.lookup i
  fork (i : Nat) : (ofCaptures e.capture).lookup i = e.lookup i

theorem length_maps : e.maps.length = e.depth := by
  simp [maps, frames, depth]

theorem Distinct.laws (h : e.Distinct) : e.Laws where
  nonempty := maps_ne_nil
  lookup i := lookup_maps.symm
  define i v := maps_define
  assigned i v := by
    rw [← lookup_maps, ← MapStack.assign?_isSome (v := v), ← maps_assign?, Option.isSome_map]
  assign {i v d} hd := by
    have hmaps : e.maps.assign? i v = some d.maps := by rw [← maps_assign?, hd, Option.map_some]
    rw [← lookup_maps]
    exact MapStack.assign?_split hmaps
  bottom hone := by
    obtain ⟨inner, bottom⟩ := e
    rw [length_maps, depth, Nat.add_eq_right, List.length_eq_zero_iff] at hone
    change (⟨inner.tail, bottom⟩ : Environment) = ⟨inner, bottom⟩
    rw [show inner = [] from hone, List.tail_nil]
  close {ops} hh := by
    obtain ⟨hlength, hfound⟩ := MapStack.kept_after_pop hh (maps_ne_nil (e := e))
    rw [← maps_after] at hlength hfound
    refine ⟨?_, fun i => ?_⟩
    · rw [← length_maps, hlength, length_maps]
    · rw [← lookup_maps, hfound, lookup_maps]
  capture i := Slots.lookup_toMap.trans get?_capture
  fork i := lookup_ofCaptures h

end Environment

end ExprTree
