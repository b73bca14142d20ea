import ExprTree.Proofs.Endings
import ExprTree.Proofs.Factories
import ExprTree.Proofs.JumpTargets

/-! A loop and the block that jumps back to where it starts. Both are told by the rounds of the
body: each round either goes on to the next one or settles how all ends. -/
namespace ExprTree

/-- What a loop ends with after a round that ended so; nothing if it goes on. -/
def settled (b c : Option Label) : Except Signal Value → Option (Except Signal Value)
  | .ok _ => none
  | .error (.jump l v) =>
    if b == some l then some (.ok (l.ty.result v)) else if c == some l then none
    else some (.error (.jump l v))
  | .error x => some (.error x)

/-- The rounds of a body up to the one that settles the end. -/
inductive Rounds (host : Host) (body : Node) (b c : Option Label) : State → Ending → Prop where
  | last {s : State} {e : Ending} {q : Except Signal Value} (h : Ends host body s e)
    (hq : settled b c e.result = some q) : Rounds host body b c s { e with result := q }
  | again {s t : State} {e f : Ending} (h : Ends host body s e) (hq : settled b c e.result = none)
    (ht : t.uncounted = e.state) (hf : Rounds host body b c t f) :
    Rounds host body b c s (f.after e.acts)

/-- The block of a loop has the continue label first and the break label last. -/
def Build.loopBlock (id top back exit : Nat) (kind : JumpKind) (body : Node) (b : Option Label)
    (c : Label) : Build.Result Node := do
  let start ← label top c none
  let jump ← goto back kind c none none
  match b with
  | none => block id [] [start, body, jump] none
  | some l => block id [] [start, body, jump, ← label exit l none] (some l.ty)

/-- A label may stand next to those of a loop: one with the id of the break label is the break
label, and what is made for a loop without a continue label is used nowhere else. -/
structure Label.Suits (l : Label) (b c : Option Label) (fresh : Label) : Prop where
  same : ∀ k ∈ b, l.id = k.id → l = k
  other : c = none → l.id ≠ fresh.id

section

variable {host : Host} {node body : Node} {b c : Option Label} {d n : Nat} {s t : State}
  {e f : Ending}

theorem Rounds.recounted (h : Rounds host body b c s e) (hl : s.limit = none)
    (ht : t.uncounted = s.uncounted) : Rounds host body b c t e := by
  cases h with
  | last h hq => exact .last (h.recounted hl ht) hq
  | again h hq hu hf => exact .again (h.recounted hl ht) hq hu hf

/-! ### Loops -/

/-- How a loop ends within so many rounds. -/
def loopEnding (host : Host) (d : Nat) (body : Node) (b c : Option Label) (n : Nat)
    (s : State) : Option Ending :=
  ((evaluator host d).runLoop body b c n s).ending ((recorder host d).loop body b c n s)

theorem loopEnding_succ : loopEnding host d body b c (n + 1) s = some e ↔
    ∃ r t f, eval host d body s = .ended r t ∧
      (settled b c r).elim (loopEnding host d body b c n t) (fun q => some ⟨q, t.uncounted, []⟩) =
        some f ∧
      e = f.after (trace host d body s).acts := by
  have hnext (r : Except Signal Value) (t : State) :
      (match r with
        | .ok _ => (evaluator host d).runLoop body b c n t
        | .error (.jump l v) =>
          if b == some l then .value (l.ty.result v) t
          else if c == some l then (evaluator host d).runLoop body b c n t
          else .signal (.jump l v) t
        | .error x => .signal x t).ending
        (bif Recorder.again b c r then (recorder host d).loop body b c n t else []) =
      (settled b c r).elim (loopEnding host d body b c n t) fun q => some ⟨q, t.uncounted, []⟩ := by
    rcases r with (x | x | ⟨l, v⟩) | v
    · rfl
    · rfl
    · dsimp only [settled, Recorder.again]
      cases b == some l with
      | true => rfl
      | false => cases c == some l <;> rfl
    · rfl
  rw [loopEnding, Evaluator.runLoop_go, Recorder.loop]
  refine ending_eval.trans (exists_congr fun r => exists_congr fun t => exists_congr fun f => ?_)
  exact and_congr_right fun _ => and_congr_left fun _ =>
    iff_of_eq (congrArg (· = some f) (hnext r t))

theorem Rounds.of_loop (h : loopEnding host d body b c n s = some e) :
    Rounds host body b c s e := by
  induction n generalizing s e with
  | zero => cases h
  | succ n ih =>
    obtain ⟨r, t, f, hb, hf, rfl⟩ := loopEnding_succ.mp h
    have he := Ends.of_ended hb
    cases hq : settled b c r with
    | none =>
      rw [hq] at hf
      exact .again he hq rfl (ih hf)
    | some q =>
      rw [hq] at hf
      obtain rfl := Option.some.inj hf
      have hr := Rounds.last he hq
      rwa [Ending.after, List.append_nil]

theorem Rounds.loop (h : Rounds host body b c s e) (hl : s.limit = none) :
    ∃ d, ∀ m ≥ d, ∀ n ≥ d, ∀ u : State, u.uncounted = s.uncounted →
      loopEnding host m body b c n u = some e := by
  induction h with
  | @last s e q h hq =>
    obtain ⟨d, hd⟩ := h.eventually hl
    refine ⟨d + 1, fun m hm n hn u hu => ?_⟩
    obtain ⟨n, rfl⟩ := Nat.exists_eq_add_of_le' hn
    obtain ⟨v, hv, hst, ha⟩ := hd m (by omega) u hu
    refine loopEnding_succ.mpr ⟨e.result, v, ⟨q, v.uncounted, []⟩, hv, by rw [hq]; rfl, ?_⟩
    rw [ha, hst, Ending.after, List.append_nil]
  | @again s t e f h hq ht hf ih =>
    obtain ⟨d, hd⟩ := h.eventually hl
    obtain ⟨d', hd'⟩ := ih (h.limit hl ht)
    refine ⟨d + d' + 1, fun m hm n hn u hu => ?_⟩
    obtain ⟨n, rfl⟩ := Nat.exists_eq_add_of_le' hn
    obtain ⟨v, hv, hst, ha⟩ := hd m (by omega) u hu
    have hrest := hd' m (by omega) (n + (d + d')) (by omega) v (hst.trans ht.symm)
    exact loopEnding_succ.mpr ⟨e.result, v, f, hv, by rw [hq]; exact hrest, by rw [ha]⟩

/-- A loop ends as its rounds do. -/
theorem loop_ends_iff {i : Nat} (hl : s.limit = none) :
    Ends host (.loop i body b c) s e ↔ Rounds host body b c s e := by
  have hloop (d : Nat) :
      ending host (d + 1) (.loop i body b c) s = loopEnding host d body b c d s.ticked := by
    refine (ending_succ hl).trans ((ending_act (R := recorder host d) id).trans ?_)
    rw [funext Ending.map_id, Option.map_id']
    rfl
  constructor
  · rintro ⟨d, h⟩
    cases d with
    | zero => cases h
    | succ d => exact (Rounds.of_loop ((hloop d).symm.trans h)).recounted hl rfl
  · intro h
    obtain ⟨d, hd⟩ := h.loop hl
    exact ⟨d + 1, (hloop d).trans (hd d (Nat.le_refl d) d (Nat.le_refl d) s.ticked rfl)⟩

/-! ### Sequences -/

variable {v : Value} {r q : Except Signal Value} {ns all : List Node}

/-- How a sequence ends within so many expressions. -/
def sequenceEnding (host : Host) (d : Nat) (all : List Node) (n : Nat) (ns : List Node) (v : Value)
    (s : State) : Option Ending :=
  ((evaluator host d).runSequence all n ns v s).ending ((recorder host d).sequence all n ns s)

/-- The value that a sequence goes on with. -/
def carried : Except Signal Value → Value
  | .ok v | .error (.jump _ v) => v
  | .error _ => .void

/-- How a sequence ends after one of its expressions has ended so. -/
def restEnding (host : Host) (d : Nat) (all : List Node) (n : Nat) (ns : List Node)
    (r : Except Signal Value) (t : State) : Option Ending :=
  (Recorder.rest? all ns r).elim (some ⟨r, t.uncounted, []⟩) fun rest =>
    sequenceEnding host d all n rest (carried r) t

theorem sequenceEnding_nil :
    sequenceEnding host d all n [] v s = some ⟨.ok v, s.uncounted, []⟩ := by
  cases n <;> rfl

theorem sequenceEnding_cons : sequenceEnding host d all (n + 1) (node :: ns) v s = some e ↔
    ∃ r t f, eval host d node s = .ended r t ∧ restEnding host d all n ns r t = some f ∧
      e = f.after (trace host d node s).acts := by
  rw [sequenceEnding, Evaluator.runSequence_go, Recorder.sequence]
  refine ending_eval.trans (exists_congr fun r => exists_congr fun t => exists_congr fun f => ?_)
  refine and_congr_right fun _ => and_congr_left fun _ => iff_of_eq (congrArg (· = some f) ?_)
  rcases r with (x | x | ⟨l, w⟩) | w
  · rfl
  · rfl
  · dsimp only [restEnding, Recorder.rest?]
    cases Evaluator.afterLabel? l all <;> rfl
  · rfl

/-- A node that does nothing by itself leaves the sequence as it ends. -/
theorem sequenceEnding_step (h : eval host d node s = .ended r t)
    (ha : (trace host d node s).acts = []) :
    sequenceEnding host d all (n + 1) (node :: ns) v s = restEnding host d all n ns r t := by
  refine Option.ext fun e =>
    sequenceEnding_cons.trans ⟨?_, fun h' => ⟨r, t, e, h, h', by rw [ha]; rfl⟩⟩
  rintro ⟨r', t', f, h', hf, rfl⟩
  obtain ⟨rfl, rfl⟩ := Outcome.ended_inj.mp (h.symm.trans h')
  rw [ha]
  exact hf

/-- A jump goes on after its label. -/
theorem sequenceEnding_goto {back : Nat} {kind : JumpKind} {l : Label} {rest : List Node}
    (hl : s.limit = none) (h : Evaluator.afterLabel? l all = some rest) :
    sequenceEnding host (d + 1) all (n + 1) (.goto back kind l none .void :: ns) v s =
      sequenceEnding host (d + 1) all n rest .void s.ticked := by
  have hs : s.spent? = none := by rw [State.spent?, hl]
  have hgoto :
      eval host (d + 1) (.goto back kind l none .void) s =
        .ended (.error (.jump l .void)) s.ticked := by
    rw [eval_succ, hs]
    rfl
  rw [sequenceEnding_step hgoto (by rw [trace, hs]; rfl), restEnding, Recorder.rest?, h]
  rfl

/-- A label is passed. -/
theorem sequenceEnding_label {top : Nat} {l : Label} (hl : s.limit = none) :
    sequenceEnding host (d + 1) all (n + 1) (.label top l none :: ns) v s =
      sequenceEnding host (d + 1) all n ns (.zero l.ty) s.ticked := by
  have hs : s.spent? = none := by rw [State.spent?, hl]
  have hlabel : eval host (d + 1) (.label top l none) s = .ended (.ok (.zero l.ty)) s.ticked := by
    rw [eval_succ, hs]
    rfl
  rw [sequenceEnding_step hlabel (by rw [trace, hs]; rfl), restEnding, Recorder.rest?]
  rfl

/-! ### The block of a loop -/

/-- The expressions of the block from the body on. -/
def roundNodes (back exit : Nat) (kind : JumpKind) (body : Node) (b : Option Label)
    (c : Label) : List Node :=
  body :: .goto back kind c none .void :: (b.map fun l => Node.label exit l none).toList

def blockNodes (top back exit : Nat) (kind : JumpKind) (body : Node) (b : Option Label)
    (c : Label) : List Node :=
  .label top c none :: roundNodes back exit kind body b c

/-- The type of the block. -/
def breakType (b : Option Label) : Ty := (b.map Label.ty).getD .void

/-- The jumps out of the body suit the loop, and none goes to a label that the body is itself. -/
structure JumpsSuit (host : Host) (body : Node) (b c : Option Label) (fresh : Label) : Prop where
  distinct : ∀ l ∈ b, l.id ≠ (c.getD fresh).id
  suits {d : Nat} {s t : State} {l : Label} {v : Value}
    (h : eval host d body s = .signal (.jump l v) t) :
    l.Suits b c fresh
  leaves {d : Nat} {s t : State} {l : Label} {v : Value}
    (h : eval host d body s = .signal (.jump l v) t) :
    Evaluator.afterLabel? l [body] = none

theorem afterLabel?_skip {l : Label} (h : Evaluator.afterLabel? l [node] = none) :
    Evaluator.afterLabel? l (node :: ns) = Evaluator.afterLabel? l ns := by
  cases node with
  | label id k x =>
    simp only [Evaluator.afterLabel?] at h ⊢
    split at h
    · cases h
    · rename_i hk
      rw [if_neg hk]
  | _ => rfl

section

variable {fresh : Label} {top back exit : Nat} {kind : JumpKind}

theorem afterLabel?_start {c : Label} :
    Evaluator.afterLabel? c (blockNodes top back exit kind body b c) =
      some (roundNodes back exit kind body b c) := by
  have hc : (c == c) = true := Evaluator.beq_iff_id.mpr rfl
  rw [blockNodes, Evaluator.afterLabel?, if_pos hc]

/-- A jump out of the body goes where the loop takes it. -/
theorem JumpsSuit.afterLabel? (hj : JumpsSuit host body b c fresh) (top back exit : Nat)
    (kind : JumpKind) {l : Label} (h : eval host d body s = .signal (.jump l v) t) :
    Evaluator.afterLabel? l (blockNodes top back exit kind body b (c.getD fresh)) =
      if b == some l then some []
      else if c == some l then some (roundNodes back exit kind body b (c.getD fresh))
      else none := by
  have hnext : Evaluator.afterLabel? l (roundNodes back exit kind body b (c.getD fresh)) =
      if b == some l then some [] else none := by
    rw [roundNodes, afterLabel?_skip (hj.leaves h),
      Evaluator.afterLabel?_cons (by simp [Node.kind])]
    cases b <;> rfl
  have hstart : (c.getD fresh == l) = (c == some l) := by
    cases c with
    | none =>
      have hne : ¬(some fresh == some l) = true :=
        fun he => (hj.suits h).other rfl (Evaluator.beq_iff_id.mp he).symm
      simpa using hne
    | some k => rfl
  have hne : (b == some l) = true → (c == some l) = false := by
    intro hb
    rw [← hstart, Bool.eq_false_iff]
    intro hc
    cases b with
    | none => cases hb
    | some k =>
      exact hj.distinct k rfl ((Evaluator.beq_iff_id.mp hb).trans (Evaluator.beq_iff_id.mp hc).symm)
  rw [blockNodes, Evaluator.afterLabel?, hnext, hstart]
  cases hb : b == some l with
  | true => rw [hne hb]; rfl
  | false => rfl

/-- After the body the block does what the loop does: it starts over, after the jump back if need
be, or it is at its end. -/
theorem JumpsSuit.round (hj : JumpsSuit host body b c fresh) (top back exit : Nat) (kind : JumpKind)
    (h : eval host d body s = .ended r t) :
    let all := blockNodes top back exit kind body b (c.getD fresh)
    (∃ v, r = .ok v) ∨
    (settled b c r = none ∧
      Recorder.rest? all ns r = some (roundNodes back exit kind body b (c.getD fresh))) ∨
    ∃ q, settled b c r = some (q.map (breakType b).result) ∧
      ∀ m n t, restEnding host m all n ns r t = some ⟨q, t.uncounted, []⟩ := by
  intro all
  rcases r with (x | x | ⟨l, v⟩) | v
  · exact .inr (.inr ⟨_, rfl, fun _ _ _ => rfl⟩)
  · exact .inr (.inr ⟨_, rfl, fun _ _ _ => rfl⟩)
  · have hrest : Recorder.rest? all ns (.error (.jump l v)) = _ :=
      hj.afterLabel? top back exit kind h
    refine .inr ?_
    rw [settled, hrest]
    cases hb : b == some l with
    | true =>
      cases b with
      | none => cases hb
      | some k =>
        obtain rfl := (hj.suits h).same k rfl (Evaluator.beq_iff_id.mp hb).symm
        refine .inr ⟨.ok v, rfl, fun m n t => ?_⟩
        rw [restEnding, hrest, hb]
        exact sequenceEnding_nil
    | false => cases hc : c == some l with
      | true => exact .inl ⟨rfl, rfl⟩
      | false =>
        refine .inr ⟨.error (.jump l v), rfl, fun m n t => ?_⟩
        rw [restEnding, hrest, hb, hc]
        rfl
  · exact .inl ⟨v, rfl⟩

theorem Rounds.of_sequence (hj : JumpsSuit host body b c fresh) (hl : s.limit = none)
    (h : sequenceEnding host d (blockNodes top back exit kind body b (c.getD fresh)) n
      (roundNodes back exit kind body b (c.getD fresh)) v s = some e) :
    Rounds host body b c s (e.map (breakType b).result) := by
  induction n using Nat.strongRecOn generalizing s e v with | ind n ih => ?_
  cases n with
  | zero => cases h
  | succ n =>
    obtain ⟨r, t, f, hb, hf, rfl⟩ := sequenceEnding_cons.mp h
    have he := Ends.of_ended hb
    have ht : t.limit = none := limit_of_ended hl hb
    rcases hj.round top back exit kind hb with ⟨w, rfl⟩ | ⟨hq, hrest⟩ | ⟨q, hq, hrest⟩
    · cases n with
      | zero => cases hf
      | succ n => cases d with
        | zero => cases hb
        | succ d =>
          have hf := (sequenceEnding_goto ht afterLabel?_start).symm.trans hf
          exact .again (t := t.ticked) he rfl rfl (ih n (by omega) ht hf)
    · rw [restEnding, hrest] at hf
      exact .again he hq rfl (ih n (by omega) ht hf)
    · rw [hrest] at hf
      obtain rfl := Option.some.inj hf
      have hr := Rounds.last he hq
      rwa [Ending.after, List.append_nil]

theorem Rounds.sequence (h : Rounds host body b c s e) (hl : s.limit = none)
    (hj : JumpsSuit host body b c fresh) (top back exit : Nat) (kind : JumpKind) :
    ∃ f, e = f.map (breakType b).result ∧ ∃ d, ∀ m ≥ d, ∀ n ≥ d, ∀ (u : State) (v : Value),
      u.uncounted = s.uncounted →
      sequenceEnding host m (blockNodes top back exit kind body b (c.getD fresh)) n
        (roundNodes back exit kind body b (c.getD fresh)) v u = some f := by
  induction h with
  | @last s e q h hq =>
    obtain ⟨d, hd⟩ := h.eventually hl
    obtain ⟨v, hv, -, -⟩ := hd d (Nat.le_refl d) s rfl
    rcases hj.round top back exit kind hv with ⟨w, hw⟩ | ⟨hn, -⟩ | ⟨q, hs, hrest⟩
    · rw [hw] at hq
      cases hq
    · rw [hn] at hq
      cases hq
    · obtain rfl := Option.some.inj (hs.symm.trans hq)
      refine ⟨{ e with result := q }, rfl, d + 1, fun m hm n hn u w hu => ?_⟩
      obtain ⟨n, rfl⟩ := Nat.exists_eq_add_of_le' hn
      obtain ⟨v, hv, hst, ha⟩ := hd m (by omega) u hu
      refine sequenceEnding_cons.mpr ⟨e.result, v, ⟨q, v.uncounted, []⟩, hv, hrest m _ v, ?_⟩
      rw [ha, hst, Ending.after, List.append_nil]
  | @again s t e f h hq ht hf ih =>
    obtain ⟨d, hd⟩ := h.eventually hl
    obtain ⟨f, rfl, d', hd'⟩ := ih (h.limit hl ht)
    refine ⟨f.after e.acts, rfl, d + d' + 2, fun m hm n hn u w hu => ?_⟩
    -- two expressions for the body and the jump back, and a step for the jump
    obtain ⟨n, rfl⟩ := Nat.exists_eq_add_of_le' hn
    obtain ⟨m, rfl⟩ := Nat.exists_eq_add_of_le' (Nat.le_trans (Nat.le_add_left 1 (d + d' + 1)) hm)
    obtain ⟨v, hv, hst, ha⟩ := hd (m + 1) (by omega) u hu
    have hvl : v.limit = none := limit_of_ended (limit_of_uncounted hu hl) hv
    have hvt : v.uncounted = t.uncounted := hst.trans ht.symm
    refine sequenceEnding_cons.mpr ⟨e.result, v, f, hv, ?_, by rw [ha]⟩
    rcases hj.round top back exit kind hv with ⟨w, hw⟩ | ⟨-, hrest⟩ | ⟨q, hs, -⟩
    · rw [hw]
      have hnext := hd' (m + 1) (by omega) (n + (d + d')) (by omega) v.ticked .void hvt
      exact (sequenceEnding_goto hvl afterLabel?_start).trans hnext
    · rw [restEnding, hrest]
      exact hd' (m + 1) (by omega) (n + (d + d' + 1)) (by omega) v _ hvt
    · rw [hq] at hs
      cases hs

/-- The block of a loop ends as its rounds do. -/
theorem JumpsSuit.block_ends_iff (hj : JumpsSuit host body b c fresh) {id : Nat}
    (hl : s.limit = none) :
    Ends host
      (.block id [] (blockNodes top back exit kind body b (c.getD fresh)) (breakType b)) s e ↔
      Rounds host body b c s e := by
  let all := blockNodes top back exit kind body b (c.getD fresh)
  have hblock (d : Nat) : ending host (d + 1) (.block id [] all (breakType b)) s =
      (sequenceEnding host d all d all .void s.ticked).map (·.map (breakType b).result) :=
    (ending_succ hl).trans (ending_act (R := recorder host d) (breakType b).result)
  have hstart (d : Nat) : sequenceEnding host (d + 1) all (d + 1) all .void s.ticked =
      sequenceEnding host (d + 1) all d (roundNodes back exit kind body b (c.getD fresh))
        (.zero (c.getD fresh).ty)
        s.ticked.ticked :=
    sequenceEnding_label hl
  constructor
  · rintro ⟨d, h⟩
    cases d with
    | zero => cases h
    | succ d =>
      rw [hblock] at h
      obtain ⟨f, hf, rfl⟩ := Option.map_eq_some_iff.mp h
      cases d with
      | zero => cases hf
      | succ d =>
        exact (Rounds.of_sequence (s := s.ticked.ticked) hj hl ((hstart d).symm.trans hf)).recounted
          hl rfl
  · intro h
    obtain ⟨f, rfl, d, hd⟩ := h.sequence hl hj top back exit kind
    refine ⟨d + 2, ?_⟩
    rw [hblock, hstart, hd (d + 1) (by omega) d (by omega) s.ticked.ticked _ rfl]
    rfl

end

/-! ### Loops as blocks -/

theorem Build.loopBlock_ok {i top back exit : Nat} {kind : JumpKind} {l : Label}
    (hl : l.ty = .void) :
    Build.loopBlock i top back exit kind body b l =
      .ok (.block i [] (blockNodes top back exit kind body b l) (breakType b)) := by
  have hjump : Build.goto back kind l none none = .ok (.goto back kind l none .void) := by
    simp [Build.goto, hl, Ty.isVoid]
  cases b with
  | none =>
    rw [Build.loopBlock, hjump]
    rfl
  | some k =>
    have hlast : Build.checkBranch "block result" k.ty (.label exit k none) = .ok () :=
      Build.checkBranch_ok.mpr (.inr (.inr (Ty.accepts_self k.ty)))
    rw [Build.loopBlock, hjump]
    change (Build.checkBranch "block result" k.ty (.label exit k none) >>= fun _ => _) = _
    rw [hlast]
    rfl

theorem Build.loop_ok {i : Nat} :
    Build.loop i body b c = .ok node ↔ (∀ l ∈ c, l.ty = .void) ∧ .loop i body b c = node := by
  cases c <;> simp [Build.loop, Build.isVoid_iff]

/-- No jump to a label leaves it. -/
theorem eval_label_jump {i : Nat} {k l : Label} {x : Option Node}
    (h : eval host d (.label i k x) s = .signal (.jump l v) t) : l.id ≠ k.id := by
  cases d with
  | zero => cases h
  | succ d =>
    rw [eval_succ] at h
    cases hs : s.spent? with
    | some n =>
      rw [hs] at h
      cases h
    | none =>
      rw [hs, Node.run_plan] at h
      cases x with
      | none => cases h
      | some x =>
        have h :
            ((((evaluator host d).eval x).outcome >>= _ : Eval Value)) s.ticked =
              .signal (.jump l v) t :=
          h
        rw [Eval.outcome_bind_eq] at h
        generalize (evaluator host d).eval x s.ticked = o at h
        rcases o with w | (x | x | ⟨j, w⟩) | _
        · cases h
        · cases h
        · cases h
        · simp only [Outcome.andThen] at h
          split at h
          · cases h
          · rename_i hne
            cases h
            exact fun he => hne (Evaluator.beq_iff_id.mpr he)
        · cases h

theorem jumpsSuit {fresh : Label} (hd : ∀ l ∈ b, l.id ≠ (c.getD fresh).id)
    (hb : body.All (Node.Aims (·.Suits b c fresh)))
    (hh : host.Keeps (fun _ => True) (·.Within (·.Suits b c fresh))) :
    JumpsSuit host body b c fresh where
  distinct := hd
  suits h := eval_jump_within hh hb h
  leaves {d s t l v} h := by
    cases body with
    | label i k x =>
      have hne : ¬(k == l) = true := fun he => eval_label_jump h (Evaluator.beq_iff_id.mp he).symm
      rw [Evaluator.afterLabel?, if_neg hne]
      rfl
    | _ => rfl

/-- A loop is the block, without variables, of its continue label, its body, a jump back and its
break label. In every state without a limit the one comes to an end if the other does, both with the
same result, after the same uses of handles, and leave the same values and the same store. -/
theorem loop_as_block (host : Host) (i : Nat) (body : Node) (b c : Option Label) (loop : Node)
    (hloop : Build.loop i body b c = .ok loop) (fresh : Label) (hfresh : fresh.ty = .void)
    (hdistinct : ∀ l ∈ b, l.id ≠ (c.getD fresh).id)
    (hbody : body.All (Node.Aims (·.Suits b c fresh)))
    (hhost : host.Keeps (fun _ => True) (·.Within (·.Suits b c fresh))) (j top back exit : Nat)
    (kind : JumpKind) :
    ∃ block, Build.loopBlock j top back exit kind body b (c.getD fresh) = .ok block ∧
      ∀ s : State, s.limit = none → ((∃ e, Ends host loop s e) ↔ ∃ e, Ends host block s e) ∧
        ∀ e e', Ends host loop s e → Ends host block s e' → e' = e := by
  obtain ⟨hc, rfl⟩ := Build.loop_ok.mp hloop
  have hvoid : (c.getD fresh).ty = .void := by
    cases c with
    | none => exact hfresh
    | some l => exact hc l rfl
  have hj := jumpsSuit hdistinct hbody hhost
  refine ⟨_, Build.loopBlock_ok hvoid, fun s hl => ?_⟩
  let block : Node :=
    .block j [] (blockNodes top back exit kind body b (c.getD fresh)) (breakType b)
  have hends (e : Ending) : Ends host (.loop i body b c) s e ↔ Ends host block s e :=
    (loop_ends_iff hl).trans (hj.block_ends_iff hl).symm
  exact ⟨exists_congr hends, fun e e' he he' => he'.unique ((hends e).mp he)⟩

end

/-- The first round sets a parameter, and the second leaves the loop with a value. The block does
the same. -/
theorem second_round_breaks :
    let host := Scripts.host {}
    let p : Param := ⟨0, none, .bool⟩
    let l : Label := ⟨0, none, .str⟩
    let fresh : Label := ⟨1, none, .void⟩
    let body : Node :=
      .conditional 0 (.param p) (.goto 1 .breakTo l (some (.constant 2 (.str "left") .str)) .void)
      (.binary 3 .assign (.param p) (.constant 4 (.bool true) .bool) none none .bool) .void
    let s (b : Bool) : State := { State.start none {} with env := .ofCaptures [(0, .bool b)] }
    ∃ block, Build.loopBlock 0 1 2 3 .goto body (some l) fresh = .ok block ∧
      Ends host block (s false) ⟨.ok (.str "left"), s true, [.assign (.bool true)]⟩ := by
  intro host p l fresh body s
  have hloop : Build.loop 5 body (some l) none = .ok (.loop 5 body (some l) none) := rfl
  have hdistinct : ∀ k ∈ some l, k.id ≠ (none.getD fresh).id := by
    rintro _ ⟨⟩
    decide
  have hsuits : l.Suits (some l) none fresh := ⟨by rintro _ ⟨⟩ _; rfl, fun _ => by decide⟩
  have hbody : body.All (Node.Aims (·.Suits (some l) none fresh)) := by
    have hconstant (id : Nat) (v : Value) (t : Ty) :
        (Node.constant id v t).All (Node.Aims (·.Suits (some l) none fresh)) :=
      .mk nofun nofun
    refine .mk nofun
      (List.forall_mem_cons.mpr ⟨Node.aims_param p, List.forall_mem_cons.mpr ⟨?_, ?_⟩⟩)
    · exact .mk (List.forall_mem_singleton.mpr hsuits)
        (List.forall_mem_singleton.mpr (hconstant ..))
    · refine List.forall_mem_singleton.mpr
        (.mk nofun (List.forall_mem_cons.mpr ⟨Node.aims_param p, ?_⟩))
      exact List.forall_mem_cons.mpr ⟨hconstant .., nofun⟩
  obtain ⟨block, hblock, hends⟩ :=
    loop_as_block host 5 body (some l) none _ hloop fresh rfl hdistinct hbody Host.scripts_nil_keeps
      0 1 2 3 .goto
  have he :
      Ends host (.loop 5 body (some l) none) (s false) ⟨.ok (.str "left"), s true,
        [.assign (.bool true)]⟩ :=
    ⟨5, by cbv⟩
  obtain ⟨hiff, heq⟩ := hends (s false) rfl
  obtain ⟨e, he'⟩ := hiff.mp ⟨_, he⟩
  obtain rfl := heq _ e he he'
  exact ⟨block, hblock, he'⟩

end ExprTree
