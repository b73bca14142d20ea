import ExprTree.Proofs.Walk

/-! A sequence of children is visited as the eager map would visit it. Only what is made of the
answers is put off: the items before the first one that changed are never copied if none does. -/
namespace ExprTree

variable {σ α : Type}

namespace Visit

variable {f : α → Visit σ α} {x y : α} {xs ys : List α} {s t : σ × Nat} {e : RewriteError}

/-- One call for each item, in order, each from the state that the one before it left; all give a
value. -/
inductive Calls (f : α → Visit σ α) : σ × Nat → List α → List α → σ × Nat → Prop where
  | nil {s : σ × Nat} : Calls f s [] [] s
  | cons {x y : α} {xs ys : List α} {s t u : σ × Nat} (h : (f x).run.run s = (.ok y, t))
    (hs : Calls f t xs ys u) : Calls f s (x :: xs) (y :: ys) u

/-- After such calls for the items before it, the call for some item fails. -/
def Fails (f : α → Visit σ α) (s : σ × Nat) (xs : List α) (e : RewriteError) (t : σ × Nat) : Prop :=
  ∃ before x after ys u, xs = before ++ x :: after ∧ Calls f s before ys u ∧
    (f x).run.run u = (.error e, t)

theorem Calls.length_eq (h : Calls f s xs ys t) : ys.length = xs.length := by
  induction h with
  | nil => rfl
  | cons _ _ ih => simp [ih]

theorem Fails.here (h : (f x).run.run s = (.error e, t)) : Fails f s (x :: xs) e t :=
  ⟨[], x, xs, [], s, rfl, .nil, h⟩

theorem Fails.later {u : σ × Nat} (h : (f x).run.run s = (.ok y, t)) (hs : Fails f t xs e u) :
    Fails f s (x :: xs) e u := by
  obtain ⟨before, z, after, ys, v, rfl, hcalls, hz⟩ := hs
  exact ⟨x :: before, z, after, y :: ys, v, rfl, .cons h hcalls, hz⟩

/-! ### The eager map -/

theorem run_mapM_cons : ((x :: xs).mapM f).run.run s = match (f x).run.run s with
    | (.ok y, t) => match (xs.mapM f).run.run t with
      | (.ok ys, u) => (.ok (y :: ys), u)
      | (.error e, u) => (.error e, u)
    | (.error e, t) => (.error e, t) := by
  rw [List.mapM_cons, run_bind]
  rcases (f x).run.run s with ⟨e | y, t⟩
  · rfl
  · dsimp only
    rw [run_bind]
    rcases (xs.mapM f).run.run t with ⟨_ | _, u⟩ <;> rfl

theorem Calls.run_mapM (h : Calls f s xs ys t) : (xs.mapM f).run.run s = (.ok ys, t) := by
  induction h with
  | nil => rfl
  | cons hx _ ih => simp only [run_mapM_cons, hx, ih]

theorem Fails.run_mapM (h : Fails f s xs e t) : (xs.mapM f).run.run s = (.error e, t) := by
  obtain ⟨before, x, after, ys, u, rfl, hcalls, hx⟩ := h
  induction hcalls with
  | nil => simp only [List.nil_append, run_mapM_cons, hx]
  | cons hy _ ih => simp only [List.cons_append, run_mapM_cons, hy, ih hx]

/-- Either all calls give values, or one of them is the first to fail. -/
theorem calls_or_fails (f : α → Visit σ α) (s : σ × Nat) (xs : List α) :
    (∃ ys t, Calls f s xs ys t) ∨ ∃ e t, Fails f s xs e t := by
  induction xs generalizing s with
  | nil => exact .inl ⟨[], s, .nil⟩
  | cons x xs ih =>
    rcases hx : (f x).run.run s with ⟨e | y, t⟩
    · exact .inr ⟨e, t, .here hx⟩
    · rcases ih t with ⟨ys, u, hcalls⟩ | ⟨e, u, hfails⟩
      · exact .inl ⟨y :: ys, u, .cons hx hcalls⟩
      · exact .inr ⟨e, u, .later hx hfails⟩

theorem all_eq_mapM : all (xs.map f) = xs.mapM f := by
  induction xs with
  | nil => rfl
  | cons x xs ih =>
    rw [List.map_cons, all, ih, List.mapM_cons]

/-! ### What is made of the answers -/

variable [Identified α]

/-- The new list, if there has to be one: the old items up to the first one that changed, and from
there on the answers. -/
def spliced : List α → List α → Option (List α)
  | x :: xs, y :: ys => if same y x then (spliced xs ys).map (x :: ·) else some (y :: ys)
  | _, _ => none

/-- Visiting lazily is the eager map, with the choice made afterwards. -/
theorem ofList_eq_mapM : ofList f xs = spliced xs <$> xs.mapM f := by
  induction xs with
  | nil => rfl
  | cons x xs ih =>
    have hrest : sequence (xs.map fun x => (x, f x)) = spliced xs <$> xs.mapM f := ih
    have hall : all ((xs.map fun x => (x, f x)).map (·.2)) = xs.mapM f := by
      rw [List.map_map]
      exact all_eq_mapM
    rw [ofList, List.map_cons, sequence, List.mapM_cons, map_bind]
    refine congrArg _ (funext fun y => ?_)
    rw [hrest, hall, map_bind]
    by_cases hsame : same y x = true
    · rw [if_pos hsame, bind_map_left]
      refine congrArg _ (funext fun ys => ?_)
      rw [map_pure, spliced, if_pos hsame]
    · rw [if_neg hsame]
      refine congrArg _ (funext fun ys => ?_)
      rw [map_pure, spliced, if_neg hsame]

theorem spliced_eq_none_iff (h : ys.length = xs.length) :
    spliced xs ys = none ↔ List.Forall₂ (fun y x => same y x = true) ys xs := by
  induction xs generalizing ys with
  | nil =>
    obtain rfl := List.length_eq_zero_iff.mp h
    exact ⟨fun _ => .nil, fun _ => rfl⟩
  | cons x xs ih =>
    cases ys with
    | nil => cases h
    | cons y ys =>
      rw [spliced, List.forall₂_cons]
      by_cases hsame : same y x = true
      · rw [if_pos hsame, Option.map_eq_none_iff, ih (Nat.succ.inj h)]
        exact ⟨fun h => ⟨hsame, h⟩, And.right⟩
      · rw [if_neg hsame]
        exact ⟨nofun, fun h => absurd h.1 hsame⟩

/-- The list after the visit. -/
theorem spliced_cons : (spliced (x :: xs) (y :: ys)).getD (x :: xs) =
    if same y x then x :: (spliced xs ys).getD xs else y :: ys := by
  rw [spliced]
  split
  · cases spliced xs ys <;> rfl
  · rfl

theorem length_spliced (h : ys.length = xs.length) :
    ((spliced xs ys).getD xs).length = xs.length := by
  induction xs generalizing ys with
  | nil =>
    obtain rfl := List.length_eq_zero_iff.mp h
    rfl
  | cons x xs ih =>
    cases ys with
    | nil => cases h
    | cons y ys =>
      rw [spliced_cons]
      split
      · rw [List.length_cons, ih (Nat.succ.inj h), List.length_cons]
      · exact h

/-- In every position is the answer, or the old item where that was the answer. -/
theorem spliced_getElem? {i : Nat} (hy : ys[i]? = some y) (hx : xs[i]? = some x) :
    ((spliced xs ys).getD xs)[i]? = some y ∨
      same y x = true ∧ ((spliced xs ys).getD xs)[i]? = some x := by
  induction xs generalizing ys i with
  | nil => cases hx
  | cons x' xs ih =>
    cases ys with
    | nil => cases hy
    | cons y' ys =>
      rw [spliced_cons]
      by_cases hsame : same y' x' = true
      · rw [if_pos hsame]
        cases i with
        | zero =>
          cases hy
          cases hx
          exact .inr ⟨hsame, rfl⟩
        | succ i => exact ih hy hx
      · rw [if_neg hsame]
        exact .inl hy

/-- How the result `r` of visiting `xs` stands to the answers `ys`, `none` being the sequence `xs`
itself. -/
structure Spliced (xs ys : List α) (r : Option (List α)) : Prop where
  length : (r.getD xs).length = xs.length
  /-- The sequence is the same one exactly if all its items are. -/
  same_iff : r = none ↔ List.Forall₂ (fun y x => same y x = true) ys xs
  /-- In every position is the answer, or the old item where the answer was that item. -/
  position {i : Nat} {x y : α} : xs[i]? = some x → ys[i]? = some y →
    (r.getD xs)[i]? = some y ∨ same y x = true ∧ (r.getD xs)[i]? = some x
  /-- So the answers are what there is, since one identity is that of one item. -/
  eq : (∀ (i : Nat) (x y : α), xs[i]? = some x → ys[i]? = some y → same y x = true → y = x) →
    r.getD xs = ys

theorem spliced_spec (h : ys.length = xs.length) : Spliced xs ys (spliced xs ys) where
  length := length_spliced h
  same_iff := spliced_eq_none_iff h
  position hx hy := spliced_getElem? hy hx
  eq hone := by
    refine List.ext_getElem? fun i => ?_
    rcases hx : xs[i]? with _ | x
    · have hi : xs.length ≤ i := List.getElem?_eq_none_iff.mp hx
      rw [List.getElem?_eq_none (length_spliced h ▸ hi), List.getElem?_eq_none (h ▸ hi)]
    · have hi : i < ys.length := h ▸ (List.getElem?_eq_some_iff.mp hx).1
      have hy : ys[i]? = some ys[i] := List.getElem?_eq_getElem hi
      rcases spliced_getElem? hy hx with hz | ⟨hsame, hz⟩
      · rw [hz, hy]
      · rw [hz, hy, hone i x _ hx hy hsame]

theorem items_eq_ofList : items xs (xs.map fun x => (x, f x)) = (·.getD xs) <$> ofList f xs := rfl

end Visit

/-- Each sequence of children is visited as a sequence, with what the rewriter does for one child as
the call. -/
structure Rewriter.VisitsSequences (r : Rewriter σ) : Prop where
  nodes (ns : List Node) : Visit.items ns (r.visitEach ns) = (·.getD ns) <$> Visit.ofList r.visit ns
  params (context : String) (ps : List Param) : r.visitParams context ps =
    (·.getD ps) <$> Visit.ofList (fun p => Visit.asParam context (r.visitParam p)) ps
  cases (cs : List SwitchCase) :
    Visit.items cs (r.visitEachCase cs) = (·.getD cs) <$> Visit.ofList r.visitCase cs
  clauses (hs : List CatchClause) :
    Visit.items hs (r.visitEachClause hs) = (·.getD hs) <$> Visit.ofList r.visitClause hs
  inits (is : List ElementInit) :
    Visit.items is (r.visitEachInit is) = (·.getD is) <$> Visit.ofList r.visitInit is
  bindings (bs : List MemberBinding) :
    Visit.items bs (r.visitEachBinding bs) = (·.getD bs) <$> Visit.ofList r.visitBinding bs

theorem Rewriter.visitsSequences (r : Rewriter σ) : r.VisitsSequences where
  nodes ns := by rw [visitEach_eq, Visit.items_eq_ofList]
  params context ps := by rw [visitParams, Visit.items_eq_ofList]
  cases cs := by rw [visitEachCase_eq, Visit.items_eq_ofList]
  clauses hs := by rw [visitEachClause_eq, Visit.items_eq_ofList]
  inits is := by rw [visitEachInit_eq, Visit.items_eq_ofList]
  bindings bs := by rw [visitEachBinding_eq, Visit.items_eq_ofList]

open Visit in
/-- A sequence is visited as by the eager map. The function is called once on each item, in order
and with the state handed on, up to the first error, which is the result. Without one the result has
the answers in their places, and is the sequence itself exactly if each item came back the same. All
sequences of children in a tree are visited so. -/
theorem lazy_visit_eager [Identified α] (f : α → Visit σ α) (xs : List α) (s : σ × Nat) :
    (∀ ys t, Calls f s xs ys t → (xs.mapM f).run.run s = (.ok ys, t) ∧
      ∃ r, (ofList f xs).run.run s = (.ok r, t) ∧ Spliced xs ys r) ∧
    (∀ e t, Fails f s xs e t → (xs.mapM f).run.run s = (.error e, t) ∧
      (ofList f xs).run.run s = (.error e, t)) ∧
    ((∃ ys t, Calls f s xs ys t) ∨ ∃ e t, Fails f s xs e t) ∧
    ∀ r : Rewriter σ, r.VisitsSequences := by
  have hrun : (ofList f xs).run.run s = match (xs.mapM f).run.run s with
      | (.ok ys, t) => (.ok (spliced xs ys), t)
      | (.error e, t) => (.error e, t) := by
    rw [ofList_eq_mapM, ← bind_pure_comp, run_bind]
    rcases (xs.mapM f).run.run s with ⟨_ | _, t⟩ <;> rfl
  refine ⟨fun ys t h => ?_, fun e t h => ?_, calls_or_fails f s xs, Rewriter.visitsSequences⟩
  · rw [h.run_mapM] at hrun
    exact ⟨h.run_mapM, _, hrun, spliced_spec h.length_eq⟩
  · rw [h.run_mapM] at hrun
    exact ⟨h.run_mapM, hrun⟩

namespace Visit

/-- Counts its calls, puts the label 9 in the place of 1, and refuses 9. -/
def relabel (l : Label) : Visit Nat Label := do
  modify fun (calls, next) => (calls + 1, next)
  if l.id = 9 then throw (.wrongNode "label" "other label" .label)
  return if l.id = 1 then { l with id := 9 } else l

def numbered (id : Nat) : Label := ⟨id, none, .void⟩

end Visit

open Visit in
/-- The second of three labels is replaced; on a label that is refused the visit ends after the
second call. -/
theorem second_label_replaced :
    (Calls relabel (0, 5) [numbered 0, numbered 1, numbered 2] [numbered 0, numbered 9,
      numbered 2] (3, 5) ∧
      (ofList relabel [numbered 0, numbered 1, numbered 2]).run.run (0, 5) =
        (.ok (some [numbered 0, numbered 9, numbered 2]), (3, 5))) ∧
    ∃ e, Fails relabel (0, 5) [numbered 1, numbered 9, numbered 2] e (2, 5) ∧
      (ofList relabel [numbered 1, numbered 9, numbered 2]).run.run (0, 5) =
        (.error e, (2, 5)) := by
  have hcalls : Calls relabel (0, 5) [numbered 0, numbered 1, numbered 2]
      [numbered 0, numbered 9, numbered 2] (3, 5) := .cons rfl (.cons rfl (.cons rfl .nil))
  have hfails : Fails relabel (0, 5) [numbered 1, numbered 9, numbered 2]
      (.wrongNode "label" "other label" .label) (2, 5) := .later rfl (.here rfl)
  obtain ⟨-, r, hrun, hr⟩ := (lazy_visit_eager relabel _ _).1 _ _ hcalls
  have hnone : r ≠ none := by
    rw [Ne, hr.same_iff]
    rintro (_ | ⟨-, _ | ⟨h, -⟩⟩)
    cases h
  obtain ⟨zs, rfl⟩ := Option.ne_none_iff_exists'.mp hnone
  have hzs : zs = [numbered 0, numbered 9, numbered 2] := by
    refine hr.eq fun i x y hx hy hsame => ?_
    rcases i with _ | _ | _ | i
    · cases hx; cases hy; rfl
    · cases hx; cases hy; cases hsame
    · cases hx; cases hy; rfl
    · cases hx
  subst hzs
  exact ⟨⟨hcalls, hrun⟩, _, hfails, ((lazy_visit_eager relabel _ _).2.1 _ _ hfails).2⟩

end ExprTree
