import ExprTree.Host.Scripted
import ExprTree.Proofs.Keeping
import ExprTree.Proofs.Plan
import ExprTree.Proofs.StoreEdits

/-! What the host runs for a handle: code of its own, or a built-in body, which makes one change of
the store and sees no delegates. -/
namespace ExprTree

/-- A change of the store that neither reads nor writes its delegates. -/
def Store.Oblivious {α : Type} (g : Store → α × Store) : Prop :=
  ∀ s ds, g { s with delegates := ds } = ((g s).1, { (g s).2 with delegates := ds })

/-- The store has the same delegates after such a change. -/
theorem Store.Oblivious.delegates {α : Type} {g : Store → α × Store} (hg : Oblivious g)
    (s : Store) : (g s).2.delegates = s.delegates :=
  congrArg (·.2.delegates) (hg s s.delegates)

/-- The host's own code. -/
inductive Host.Code (h : Host) : (Store → Routine) → Prop where
  | method (id : Nat) (receiver : Option Value) (args : List Value) :
    Code h (h.method id receiver args)
  | construct (id : Nat) (args : List Value) : Code h (h.construct id args)
  | get (id : Nat) (target : Option Value) : Code h (h.get id target)
  | set (id : Nat) (target : Option Value) (v : Value) : Code h (h.set id target v)
  | getItem (id : Nat) (target : Value) (args : List Value) : Code h (h.getItem id target args)
  | setItem (id : Nat) (target : Value) (args : List Value) (v : Value) :
    Code h (h.setItem id target args v)
  | delegate (id : Nat) (args : List Value) : Code h (h.delegate id args)

/-- All code of the host satisfies `Q`. -/
def Host.Each (h : Host) (Q : (Store → Routine) → Prop) : Prop := ∀ run, h.Code run → Q run

/-- A host without scripts does nothing. -/
theorem Host.scripts_nil {Q : (Store → Routine) → Prop} (hQ : Q (.pure .void)) :
    (Scripts.host {}).Each Q := by
  intro run hc
  cases hc <;> exact hQ

/-- What the host does without code of its own: one change of the store, after which it may throw
and fail, but neither jumps nor misses a name. -/
inductive Routine.BuiltIn : (Store → Routine) → Prop where
  | finish {α : Type} {g : Store → α × Store} {r : α → Except Signal Value} (hg : Store.Oblivious g)
    (he : ∀ s : Store, s.Edited (g s).2) (hr : ∀ P, Ordinary P → ∀ a x, r a = .error x → P x) :
    BuiltIn fun s => .finish (r (g s).1) (g s).2

namespace Routine.BuiltIn

theorem fail {e : EvalError} (he : e.isNaming = false) : BuiltIn (.fail (.fatal e)) :=
  finish (g := fun s => ((), s)) (r := fun _ => .error (.fatal e)) (fun _ _ => rfl) .refl
    fun _ hP _ _ hx => Except.error.inj hx ▸ hP.fatal he

theorem throw {c : ClassType} {message : String} : BuiltIn (.throw c message) :=
  finish (g := fun s => s.newException c message) (r := fun x => .error (.thrown x))
    (fun _ _ => rfl) (fun s => (Store.Edit.newObject s _ _).edited)
    fun _ hP a _ hx => Except.error.inj hx ▸ hP.thrown a

/-- A change with a result that is returned. -/
theorem change {g : Store → Value × Store} (hg : Store.Oblivious g)
    (he : ∀ s : Store, s.Edited (g s).2) : BuiltIn fun s => .pure (g s).1 (g s).2 :=
  finish (r := .ok) hg he nofun

theorem write {g : Store → Store} {v : Value} (hg : Store.Oblivious fun s => (v, g s))
    (he : ∀ s : Store, s.Edited (g s)) : BuiltIn fun s => .pure v (g s) :=
  change hg he

theorem read {f : Store → Value} (hf : Store.Oblivious fun s => (f s, s)) :
    BuiltIn fun s => .pure (f s) s :=
  change hf .refl

/-- What is no object has no fields. -/
theorem fieldOwner {m : Member} {target : Option Value} {e : Fault}
    (he : Host.fieldOwner m target = .error e) : BuiltIn (.ofFault e) := by
  unfold Host.fieldOwner at he
  split at he <;> cases he
  · exact throw
  · exact throw
  · exact fail rfl

end Routine.BuiltIn

/-- Every use of a handle runs one or the other. -/
theorem HandleCall.code_or_builtIn (c : HandleCall) (h : Host) :
    h.Code (c.routine h) ∨ Routine.BuiltIn (c.routine h) := by
  cases c with
  | method m receiver args =>
    simp only [HandleCall.routine]
    unfold Host.callMethod
    split
    · exact .inl (.method _ _ _)
    · exact .inr .throw
    · split
      · exact .inl (.method _ _ _)
      · split
        · exact .inr (.write (fun _ _ => rfl) fun s => (Store.Edit.pushListItem s _ _).edited)
        · exact .inr .throw
        · exact .inr (.fail rfl)
  | construct c args =>
    simp only [HandleCall.routine]
    unfold Host.callConstructor
    split
    · exact .inr (.change (fun _ _ => rfl) fun s => (Store.Edit.newList s _ _).edited)
    · exact .inr (.change (fun _ _ => rfl) fun s => (Store.Edit.newObject s _ _).edited)
    · exact .inl (.construct _ _)
  | get m target =>
    simp only [HandleCall.routine]
    unfold Host.readMember
    split
    · split
      · exact .inr (.read fun _ _ => rfl)
      · rename_i he
        exact .inr (.fieldOwner he)
    · exact .inr (.read fun _ _ => rfl)
    · exact .inl (.get _ _)
  | set m target v =>
    simp only [HandleCall.routine]
    unfold Host.writeMember
    split
    · split
      · exact .inr (.write (fun _ _ => rfl) fun s => (Store.Edit.setField s _ _ _).edited)
      · rename_i he
        exact .inr (.fieldOwner he)
    · exact .inr (.write (fun _ _ => rfl) fun s => (Store.Edit.setStatic s _ _).edited)
    · split
      · exact .inl (.set _ _ _)
      · exact .inr .throw
  | getItem i target args => exact .inl (.getItem _ _ _)
  | setItem i target args v =>
    simp only [HandleCall.routine]
    unfold Host.writeItem
    split
    · exact .inl (.setItem _ _ _ _)
    · exact .inr .throw

/-- What holds of all code of the host, and of what is built in, holds of every use of a handle. -/
theorem Host.Each.routine {h : Host} {Q : (Store → Routine) → Prop} (hh : h.Each Q)
    (hb : ∀ run, Routine.BuiltIn run → Q run) (c : HandleCall) : Q (c.routine h) :=
  (c.code_or_builtIn h).elim (hh _) (hb _)

end ExprTree
