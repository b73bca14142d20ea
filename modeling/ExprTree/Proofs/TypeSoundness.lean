import ExprTree.Host.Scripted
import ExprTree.Proofs.TypedControl

/-! Type soundness: what the factories say of a tree, the evaluation of it keeps. -/
namespace ExprTree

namespace Typing

open Evaluator Build

variable {Γ : Typing} {ev : Evaluator} {w : Store} {n : Node}

theorem node_yields (he : Γ.Evaluates ev) (ha : Γ.Assumed ev.host) (hn : Γ.Tree w n) :
    Γ.Yields True w (Γ.Completes n) (ev.node n) := by
  have hcomplete (h : Γ.Gives True w n.ty (ev.node n)) (hd : diverges n = false) :
      Γ.Yields True w (Γ.Completes n) (ev.node n) := h.mono fun _ _ _ hv => ⟨hv, hd⟩
  cases n with
  | constant id v t =>
    refine hcomplete (gives_pure ⟨?_, hn.here.constant id v t rfl⟩) rfl
    exact Value.fits_iff.mpr (Or.inr (Node.made_constant hn.here.made))
  | default id t => exact hcomplete (gives_pure zero_typed) rfl
  | param p => exact hcomplete (lookup_gives (hn.here.declared.slots p (by simp [Node.slots]))) rfl
  | binary id op l r m f t => exact hcomplete (evalBinary_gives he ha hn) rfl
  | unary id op x m t =>
    refine (evalUnary_yields he ha hn).mono fun u v _ hv => ⟨hv.1, ?_⟩
    simpa [diverges] using hv.2
  | typeTest id test x t =>
    refine hcomplete ((eval_gives he (hn.child (by simp [Node.children]))).bind fun _ _ _ _ =>
      ?_) rfl
    exact gives_pure ⟨Value.fits_runtimeType, trivial⟩
  | conditional id test a b t => exact hcomplete (evalConditional_gives he hn) rfl
  | call id x m args => exact hcomplete (evalCall_gives he ha hn) rfl
  | invoke id f args t => exact hcomplete (evalInvoke_gives he ha hn) rfl
  | new c =>
    exact hcomplete
      (evalNew_gives he ha hn.here.made (hn.here.uses _ (by simp [Node.uses])) fun q hq =>
      hn.child hq) rfl
  | newArray id form e items => exact hcomplete (evalNewArray_gives he hn) rfl
  | member id x m => exact hcomplete (evalMember_gives he ha hn) rfl
  | index id x i args t => exact hcomplete (evalIndex_gives he ha hn) rfl
  | lambda f => exact hcomplete (closure_gives hn) rfl
  | block id vars body t => exact hcomplete (evalBlock_gives he hn) rfl
  | loop id body b c => exact hcomplete (runLoop_gives he hn) rfl
  | label id l x => exact hcomplete (evalLabel_gives he hn) rfl
  | goto id kind l x t => exact evalGoto_yields he hn
  | switch id v cases x m t => exact hcomplete (evalSwitch_gives he ha hn) rfl
  | guarded id body handlers fin fault => exact hcomplete (evalGuarded_gives he hn) rfl
  | listInit id c inits => exact hcomplete (evalListInit_gives he ha hn) rfl
  | memberInit id c bs => exact hcomplete (evalMemberInit_gives he ha hn) rfl
  | extension id name t x sealed => exact absurd trivial hn.here.regular

/-- Every tree evaluates as its types say, to every depth. -/
theorem eval_evaluates {host : Host} (ha : Γ.Assumed host) (k : Nat) :
    Γ.Evaluates (evaluator host k) := by
  induction k with
  | zero => exact fun _ _ _ => yields_endless
  | succ k ih => exact fun w n hn => yields_tick.bind fun _ u hu _ => node_yields ih ha (hn.mono hu)

end Typing

/-- A tree that the factories built without an irregular node, evaluated in a well-typed state,
leaves a well-typed state. Its value fits its static type, the value of a jump fits the label, and
no error tells of types, arities, targets of assignments or nodes that do not go together. What is
not supported at all may still fail: an operator on what turns out to be in an `object`, an array of
several sizes. -/
theorem type_soundness (Γ : Typing) (host : Host) (ha : Γ.Assumed host) (k : Nat) (n : Node)
    (s : State) (hn : Γ.Tree s.store n) (hs : Γ.Inv s) :
    (eval host k n).IfEnds s fun r t => Γ.Inv t ∧ s.store.Extends t.store ∧ match r with
      | .ok v => Γ.Has t.store v n.ty
      | .error (.jump l v) => Γ.Has t.store v l.ty
      | .error (.fatal e) => e.isStuck = false
      | .error (.thrown x) => Γ.Backed t.store x := by
  refine Eval.IfEnds.mono (Typing.eval_evaluates ha k s.store n hn s hs (.refl _)) ?_
  rintro (x | v) t ⟨ht, hst, hr⟩
  · refine ⟨ht, hst, ?_⟩
    cases x with
    | fatal e => exact hr
    | thrown y => exact hr
    | jump l v => exact hr.2.1
  · exact ⟨ht, hst, hr.1⟩

/-- A jump brings its label the number that goes to a new list. -/
theorem jumped_item_listed :
    let i32 : Ty := .int .i32
    let zero : Value := .zero i32
    let p : Param := ⟨0, none, i32⟩
    let l : Label := ⟨0, none, i32⟩
    let c : Constructor := ⟨0, .list i32, [], .list i32⟩
    let add : Method := ⟨1, "Add", [i32], .void, false, .addToList⟩
    let jump : Node := .goto 1 .goto l (some (.param p)) i32
    let node : Node := .listInit 3 (.mk 4 c []) [.mk 5 add [.label 0 l (some jump)]]
    let s : State := ⟨⟨[], [(0, zero)]⟩, [], 0, none, {}⟩
    let u : Store := { lists := #[⟨i32, #[zero]⟩] }
    (eval (Scripts.host {}) 4 node).run s = some
    (.ok (.list i32 0), { s with steps := 4, store := u }) ∧
      (Value.list i32 0).fits node.ty := by
  intro i32 zero p l c add jump node s u
  let Γ : Typing := ⟨fun _ => i32, fun _ => i32, fun _ => ⟨[], .void⟩,
    fun x => x = .construct c ∨ x = .method add (some (.list i32)) [i32], fun _ => True,
    fun _ _ => trivial⟩
  have ha : Γ.Assumed (Scripts.host {}) := by
    refine ⟨?_, fun _ _ _ _ u _ hok => ⟨.refl u, hok, Typing.void_typed⟩⟩
    rintro _ (rfl | rfl)
    · exact Typing.newList_fulfils rfl rfl fun _ _ h => h
    · exact Typing.listAdd_fulfils rfl rfl rfl fun _ _ h => h
  have hrun : (eval (Scripts.host {}) 4 node).run s =
      some (.ok (.list i32 0), { s with steps := 4, store := u }) := by rfl
  have hp : Γ.Tree {} (.param p) := Typing.tree_mk
    ⟨rfl, id, ⟨by simp [Node.slots, Γ, p], by simp [Node.targets]⟩, by simp [Node.uses], by simp⟩
    (by simp [Node.children])
  have hjump : Γ.Tree {} jump := Typing.tree_mk
    ⟨⟨some i32, rfl⟩, id, ⟨by simp [Node.slots, jump], by simp [Node.targets, jump, Γ, l]⟩,
      by simp [Node.uses, jump], by simp [jump]⟩
    (by simpa [Node.children, jump] using hp)
  have hlabel : Γ.Tree {} (.label 0 l (some jump)) := Typing.tree_mk
    ⟨rfl, id, ⟨by simp [Node.slots], by simp [Node.targets, Γ, l]⟩, by simp [Node.uses], by simp⟩
    (by simpa [Node.children] using hjump)
  have hn : Γ.Tree s.store node := Typing.tree_mk
    ⟨⟨rfl, List.forall_mem_singleton.mpr rfl, rfl⟩, id,
      ⟨by simp [Node.slots, node], by simp [Node.targets, node]⟩,
      by simpa [Node.uses, node] using ⟨Or.inl rfl, Or.inr rfl⟩, by simp [node]⟩
    (by simpa [Node.children, node, Construction.args, ElementInit.args] using hlabel)
  have hs : Γ.Inv s := by
    refine ⟨fun {i v} h => ?_, by simp [s], Typing.storeOk_empty trivial⟩
    obtain ⟨rfl, rfl⟩ : i = 0 ∧ v = zero := by
      simpa [Environment.Entry, Environment.frames, s] using h
    exact ⟨rfl, trivial⟩
  have h := type_soundness Γ (Scripts.host {}) ha 4 node s hn hs
  obtain ⟨_, _, hv⟩ := Eval.ifEnds_iff_run.mp h _ _ hrun
  exact ⟨hrun, hv.fits⟩

end ExprTree
