import ExprTree.Proofs.LocationTypes
import ExprTree.Proofs.StoreInvariant

/-! Arrays keep their element type and their length. A position that was once in range is in range
for good, whatever runs before it is read or written. -/
namespace ExprTree

variable {host : Host} {s t : Store} {addr position : Nat} {shape : Ty × Nat}

namespace Store

/-- The element type and the length of the array at an address. -/
def arrayShape? (s : Store) (addr : Nat) : Option (Ty × Nat) :=
  s.arrays[addr]?.map fun c => (c.elem, c.items.size)

theorem arrayShape?_newArray (s : Store) (elem : Ty) (items : Array Value) :
    (s.newArray elem items).2.arrayShape? s.arrays.size = some (elem, items.size) := by
  simp [arrayShape?, newArray]

theorem arrayShape?_setItem {cells : Array Items} {i j : Nat} {v : Value} :
    (setItem cells i j v)[addr]?.map (fun c => (c.elem, c.items.size)) =
      cells[addr]?.map fun c => (c.elem, c.items.size) := by
  rw [setItem, Array.getElem?_modify]
  split
  · cases cells[addr]? <;> simp
  · rfl

theorem size_arrayItems {elem : Ty} {length : Nat} (h : s.arrayShape? addr = some (elem, length)) :
    (s.arrayItems addr).size = length := by
  obtain ⟨c, hc, hshape⟩ := Option.map_eq_some_iff.mp h
  rw [arrayItems, hc]
  exact congrArg Prod.snd hshape

theorem exists_arrayShape? (h : position < (s.arrayItems addr).size) :
    ∃ elem, s.arrayShape? addr = some (elem, (s.arrayItems addr).size) := by
  cases hc : s.arrays[addr]? with
  | none =>
    rw [arrayItems, hc] at h
    cases h
  | some c => exact ⟨c.elem, by simp [arrayShape?, arrayItems, hc]⟩

/-- No operation changes the shape of an array that is there. -/
theorem Edit.arrayShape? (h : s.Edit t) (ha : s.arrayShape? addr = some shape) :
    t.arrayShape? addr = some shape := by
  cases h with
  | newArray elem items =>
    obtain ⟨c, hc, hshape⟩ := Option.map_eq_some_iff.mp ha
    have hne : addr ≠ s.arrays.size := Nat.ne_of_lt (Array.getElem?_eq_some_iff.mp hc).1
    rw [Store.arrayShape?, Store.newArray, Array.getElem?_push, if_neg hne, hc]
    exact congrArg some hshape
  | setArrayItem a i v => exact arrayShape?_setItem.trans ha
  | _ => exact ha

theorem Edited.arrayShape? (h : s.Edited t) (ha : s.arrayShape? addr = some shape) :
    t.arrayShape? addr = some shape := by
  induction h with
  | refl => exact ha
  | tail _ hstep ih => exact hstep.arrayShape? ih

end Store

/-! ### Runs edit the store -/

/-- Host code changes the store by its operations only. -/
def Host.Edits (h : Host) : Prop := ∀ s : Store, h.Keeps s.Edited fun _ => True

theorem edited_invariant (hh : host.Edits) (s : Store) :
    StoreInvariant host s.Edited fun _ => True where
  frame he _ hs := hs.trans he
  closure _ hs := hs.trans (Store.Edit.newDelegate _ _ _).edited
  stored _ _ := .inl trivial
  host := hh s

/-- What may happen to the store at one time, whatever the depth and the rest of the state: someone
who holds it takes up one operation, a plan is carried out to its end, be it that of a node, of a
part of one or of a single action, or a lambda is called from outside. -/
inductive Store.Turn (host : Host) : Store → Store → Prop where
  | edit {s t : Store} (h : s.Edit t) : Turn host s t
  | plan {α : Type} {n : Nat} {p : Plan α} {x y : State} {r : Except Signal α}
    (h : (p.run (evaluator host n)).run x = some (r, y)) : Turn host x.store y.store
  | call {n : Nat} {f : Lambda} {args : List Value} {x y : State} {r : Except Signal Value}
    (h : ((evaluator host n).runLambda f args).run x = some (r, y)) : Turn host x.store y.store

/-- Any number of turns. -/
def Store.Later (host : Host) : Store → Store → Prop := Relation.ReflTransGen (Store.Turn host)

theorem Outcome.Leaves.of_run {α : Type} {m : Eval α} {r : Except Signal α} {x y : State}
    {Q : State → Prop} (h : (m x).Leaves Q) (hr : m.run x = some (r, y)) : Q y := by
  unfold Eval.run at hr
  cases hm : m x <;> rw [hm] at h hr <;> cases hr <;> exact h

theorem Store.Turn.edited (hh : host.Edits) (h : s.Turn host t) : s.Edited t := by
  cases h with
  | edit h => exact h.edited
  | @plan α n p x y r h =>
    have hi := edited_invariant hh x.store
    exact (Outcome.Leaves.of_run (hi.plan_advances (hi.advances n) trivial (.refl _)) h).inv
  | @call n f args x y r h =>
    have hi := edited_invariant hh x.store
    exact Outcome.Leaves.of_run (Evaluator.lambda_leaves (hi.advances n) trivial (.refl _)) h

theorem Store.Later.edited (hh : host.Edits) (h : s.Later host t) : s.Edited t := by
  induction h with
  | refl => exact .refl s
  | tail _ hstep ih => exact ih.trans (hstep.edited hh)

/-! ### Elements -/

/-- An index names an element exactly if its value does, for lengths that 64 bits can count. -/
theorem Value.element_int {elem e : Ty} {length : Nat} {k : IntKind} {w : Word k}
    (h : s.arrayShape? addr = some (elem, length)) (hl : (length : Int) ≤ IntKind.i64.max) :
    Value.element s (.array e addr) (.int k w) =
      if 0 ≤ w.toInt ∧ w.toInt < length then .ok (addr, w.toInt.toNat)
      else
        .error (.indexOutOfRange (max IntKind.i64.min (min IntKind.i64.max w.toInt)) length) := by
  have hmin : IntKind.i64.min < 0 := by decide
  unfold element
  simp only [index?, integer?, Option.map_some, Store.size_arrayItems h]
  by_cases hw : 0 ≤ w.toInt ∧ w.toInt < length
  · have heq : max IntKind.i64.min (min IntKind.i64.max w.toInt) = w.toInt := by omega
    rw [heq, if_pos hw]
  · have hnot : ¬(0 ≤ max IntKind.i64.min (min IntKind.i64.max w.toInt) ∧
        max IntKind.i64.min (min IntKind.i64.max w.toInt) < length) := by omega
    rw [if_neg hw, if_neg hnot]

/-- A position that was found is one of the array's. -/
theorem Value.lt_of_element {array index : Value}
    (h : Value.element s array index = .ok (addr, position)) :
    position < (s.arrayItems addr).size := by
  obtain ⟨⟨elem, rfl⟩, hi⟩ := Value.index_of_element h
  simp only [element, hi] at h
  split at h
  · rename_i hrange
    exact Int.ofNat_lt.mp hrange.2
  · cases h

/-- Neither reading the element nor writing it finds the position out of range. -/
structure Store.Sound (s : Store) (addr position : Nat) : Prop where
  readElement : ∃ v, s.readElement addr position = .ok v
  read (ev : Evaluator) {x : State} (hx : x.store = s) :
    ∃ v, ev.read (.element addr position) x = .value v x
  write (ev : Evaluator) {x : State} (hx : x.store = s) (v : Value) :
    ev.write (.element addr position) v x =
    .value () { x with store := s.setArrayItem addr position v }

theorem Store.sound_of_lt (h : position < (s.arrayItems addr).size) : s.Sound addr position := by
  have hread : s.readElement addr position = .ok (s.arrayItems addr)[position] := by
    rw [Store.readElement, Array.getElem?_eq_getElem h]
  refine ⟨⟨_, hread⟩, fun ev x hx => ⟨(s.arrayItems addr)[position], ?_⟩, fun ev x hx v => ?_⟩
  · subst hx
    exact congrArg (fun r => Eval.ofExcept r x) hread
  · subst hx
    rw [Evaluator.write, Place.writeElement_eq, if_pos h]
    rfl

/-- The place of an element was found in the store in which the search for it ended. -/
theorem element_of_place {ev : Evaluator} {target : Node} {x y : State}
    (h : ev.place target x = .value (.element addr position) y) :
    ∃ array index, Value.element y.store array index = .ok (addr, position) := by
  cases target with
  | index id object indexer args ty =>
    obtain ⟨a, u, -, h⟩ := Eval.bind_value.mp h
    obtain ⟨vs, z, -, h⟩ := Eval.bind_value.mp h
    match indexer, vs, h with
    | none, [index], h =>
      obtain ⟨st, z', hst, h⟩ := Eval.bind_value.mp h
      cases hst
      obtain ⟨⟨b, i⟩, z', hfound, h⟩ := Eval.bind_value.mp h
      obtain ⟨helement, rfl⟩ := Eval.ofExcept_value.mp hfound
      cases h
      exact ⟨a, index, helement⟩
    | some i, vs, h =>
      obtain ⟨_, _, -, h⟩ := Eval.bind_value.mp h
      cases h
    | none, [], h => cases h
    | none, _ :: _ :: _, h => cases h
  | member id object m =>
    obtain ⟨_, _, -, h⟩ := Eval.bind_value.mp h
    cases h
  | _ => cases h

/-- Whatever happens after an index has named an element, the element can be read and written. -/
theorem Store.Later.sound {array index : Value} (hh : host.Edits) (h : s.Later host t)
    (he : Value.element s array index = .ok (addr, position)) : t.Sound addr position := by
  have hlt : position < (s.arrayItems addr).size := Value.lt_of_element he
  obtain ⟨elem, hshape⟩ := Store.exists_arrayShape? hlt
  have hkept : t.arrayShape? addr = some (elem, (s.arrayItems addr).size) :=
    (h.edited hh).arrayShape? hshape
  exact Store.sound_of_lt (Store.size_arrayItems hkept ▸ hlt)

/-- An assignment of any form to an element ends with the write as soon as it has come to what it
stores. -/
theorem assigned_element {n : Nat} {node target : Node} {a : Assignment} {x y z : State}
    {v w : Value} (hh : host.Edits) (ha : node.assignment? = some (target, a))
    (hp : (evaluator host n).place target x = .value (.element addr position) y)
    (hw : (Plan.produce a (.element addr position)).run (evaluator host n) y = .value (w, v) z) :
    (evaluator host n).node node x = .value v
      { z with store := z.store.setArrayItem addr position w } := by
  obtain ⟨array, index, he⟩ := element_of_place hp
  have hturn : y.store.Turn host z.store := .plan (r := .ok (w, v)) (Eval.run_eq_some.mpr hw)
  have hwrite := (Store.Later.sound hh (.single hturn) he).write (evaluator host n) (x := z) rfl w
  have hstore : (Plan.store (.element addr position) (w, v)).run (evaluator host n) z =
      .value v { z with store := z.store.setArrayItem addr position w } := by
    rw [Plan.store, Plan.run_bind, Plan.run_write]
    exact Eval.bind_value.mpr ⟨(), _, hwrite, rfl⟩
  rw [← Node.run_plan, Plan.assignment_plan ha, Plan.run_bind, Plan.run_place]
  refine Eval.bind_value.mpr ⟨_, y, hp, ?_⟩
  rw [Plan.run_bind]
  exact Eval.bind_value.mpr ⟨(w, v), z, hw, hstore⟩

/-- From the moment it is made an array keeps its element type and its length, whatever is
evaluated, used or called. An integer names an element exactly if it is from 0 up to the length, and
is out of range else; no array is longer than 64 signed bits can count. The element that it named
can be read and written ever after, so that an assignment of any form to it ends with the write as
soon as it has come to what it stores. -/
theorem arrays_keep_length {host : Host} (hh : host.Edits) :
    (∀ (s : Store) (elem : Ty) (items : Array Value), ∃ addr,
      (s.newArray elem items).1 = .array elem addr ∧
      (s.newArray elem items).2.arrayShape? addr = some (elem, items.size)) ∧
    (∀ (s t : Store) (addr : Nat) (shape : Ty × Nat), s.Later host t →
      s.arrayShape? addr = some shape →
      t.arrayShape? addr = some shape) ∧
    (∀ (s : Store) (addr length : Nat) (elem e : Ty) (k : IntKind) (w : Word k),
      s.arrayShape? addr = some (elem, length) → (length : Int) ≤ IntKind.i64.max →
      Value.element s (.array e addr) (.int k w) =
        if 0 ≤ w.toInt ∧ w.toInt < length then .ok (addr, w.toInt.toNat)
        else .error (.indexOutOfRange (max IntKind.i64.min (min IntKind.i64.max w.toInt)) length)) ∧
    (∀ (s t : Store) (array index : Value) (addr position : Nat),
      Value.element s array index = .ok (addr, position) → s.Later host t → t.Sound addr position) ∧
    ∀ (n : Nat) (node target : Node) (a : Assignment) (x y : State) (addr position : Nat),
      node.assignment? = some (target, a) →
      (evaluator host n).place target x = .value (.element addr position) y →
      (∃ array index, Value.element y.store array index = .ok (addr, position)) ∧
      ∀ w v z, (Plan.produce a (.element addr position)).run (evaluator host n) y =
        .value (w, v) z →
        (evaluator host n).node node x =
          .value v { z with store := z.store.setArrayItem addr position w } := by
  refine ⟨fun s elem items => ⟨_, rfl, Store.arrayShape?_newArray s elem items⟩,
    fun s t addr shape h hs => (h.edited hh).arrayShape? hs,
    fun s addr length elem e k w => Value.element_int,
    fun s t array index addr position he h => h.sound hh he,
    fun n node target a x y addr position ha hp => ?_⟩
  exact ⟨element_of_place hp, fun w v z hw => assigned_element hh ha hp hw⟩

/-- A host with an indexer that writes the first item of an array, whatever the index. -/
def overwriting : Host :=
  { Scripts.host {} with
    setItem := fun _ target _ v s => match target with
      | .array _ addr => .pure .void (s.setArrayItem addr 0 v)
      | _ => .pure .void s }

theorem overwriting_edits : overwriting.Edits := by
  intro s
  rintro _ (⟨id, receiver, args⟩ | ⟨id, args⟩ | ⟨id, target⟩ | ⟨id, target, v⟩ |
    ⟨id, target, args⟩ | ⟨id, target, args, v⟩ | ⟨id, args⟩) t ht
  case setItem =>
    cases target with
    | array e addr => exact ⟨ht.trans (Store.Edit.setArrayItem t addr 0 v).edited, nofun⟩
    | _ => exact ⟨ht, nofun⟩
  all_goals exact ⟨ht, nofun⟩

/-- The second of two items was found before an indexer wrote the first, and can be read and written
after. -/
theorem second_of_two_items_stays :
    let s := (({} : Store).newArray .bool #[.bool true, .bool true]).2
    let t := s.setArrayItem 0 0 (.bool false)
    overwriting.Edits ∧ s.Later overwriting t ∧ t.arrayShape? 0 = some (.bool, 2) ∧
    Value.element s (.array .bool 0) (.int .u8 (Word.wrap .u8 1)) = .ok (0, 1) ∧ t.Sound 0 1 ∧
    Value.element t (.array .bool 0) (.int .u64 (Word.wrap .u64 (-1))) =
      .error (.indexOutOfRange IntKind.i64.max 2) := by
  intro s t
  obtain ⟨-, hkept, hint, hsound, -⟩ := arrays_keep_length overwriting_edits
  have hshape : s.arrayShape? 0 = some (.bool, 2) := rfl
  have hlater : s.Later overwriting t := by
    have hrun :
        ((Plan.use (.setItem ⟨0, "Item", .bool, [], true⟩ (.array .bool 0) [] (.bool false))).run
        (evaluator overwriting 0)).run (.start none s) = some (.ok .void, .start none t) := rfl
    exact .single (.plan hrun)
  have helement : Value.element s (.array .bool 0) (.int .u8 (Word.wrap .u8 1)) = .ok (0, 1) := by
    rw [hint s 0 2 .bool .bool .u8 _ hshape (by decide), if_pos (by decide)]
    rfl
  refine ⟨overwriting_edits, hlater, hkept s t 0 _ hlater hshape, helement,
    hsound s t _ _ 0 1 helement hlater, ?_⟩
  rw [hint t 0 2 .bool .bool .u64 _ (hkept s t 0 _ hlater hshape) (by decide), if_neg (by decide)]
  rfl

end ExprTree
