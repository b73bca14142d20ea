import ExprTree.Proofs.Subtyping
import Mathlib.Data.List.Infix

/-! Storability is a partial order. On classes it is the order of base chains, which end since a
class is declared over bases that are there already, and in which ids tell the classes apart since
none is given out twice. -/
namespace ExprTree

namespace ClassType

variable {c d b : ClassType} {cs : List ClassType} {next : Nat}

def id : ClassType → Nat
  | .root i _ | .derived i _ _ => i

/-- The class and its bases, the nearest first. -/
def lineage : ClassType → List ClassType
  | .root i n => [.root i n]
  | .derived i n b => .derived i n b :: b.lineage

theorem derivesFrom_iff_mem_lineage : c.derivesFrom d ↔ d ∈ c.lineage := by
  induction c with
  | root i n => simp [derivesFrom, lineage, eq_comm (a := d)]
  | derived i n b ih => simp [derivesFrom, lineage, ih, eq_comm (a := d)]

theorem suffix_of_derivesFrom (h : c.derivesFrom d) : d.lineage <:+ c.lineage := by
  induction c with
  | root i n =>
    rcases derivesFrom_iff.mp h with rfl | ⟨b, hb, _⟩
    · exact List.suffix_refl _
    · cases hb
  | derived i n b ih =>
    rcases derivesFrom_iff.mp h with rfl | ⟨b', hb, hd⟩
    · exact List.suffix_refl _
    · cases hb
      exact (ih hd).trans (List.suffix_cons _ _)

theorem head?_lineage (c : ClassType) : c.lineage.head? = some c := by
  cases c <;> rfl

theorem derivesFrom_antisymm (h : c.derivesFrom d) (h' : d.derivesFrom c) : c = d := by
  have hl : c.lineage = d.lineage :=
    (suffix_of_derivesFrom h').sublist.antisymm (suffix_of_derivesFrom h).sublist
  have hhead := congrArg List.head? hl
  rw [head?_lineage, head?_lineage] at hhead
  exact Option.some.inj hhead

/-- No chain of bases goes on for ever. -/
theorem wellFounded_base : WellFounded fun b c : ClassType => c.base? = some b := by
  refine ⟨fun c => ?_⟩
  induction c with
  | root i n => exact ⟨_, fun b hb => by cases hb⟩
  | derived i n b ih =>
    refine ⟨_, fun b' hb => ?_⟩
    cases hb
    exact ih

/-! ### Identity by ids -/

/-- The search for a class along a chain of bases, by its id and in so many rounds. -/
def search (target : ClassType) : Nat → Option ClassType → Option Bool
  | 0, _ => none
  | _ + 1, none => some false
  | n + 1, some c => if c.id = target.id then some true else search target n c.base?

/-- The classes that are known after some declarations, and the least id that was not given out. -/
inductive Declared : Nat → List ClassType → Prop where
  | builtin : Declared firstFreeId builtin
  | plain {next : Nat} {cs : List ClassType} (h : Declared next cs) {id : Nat} (hid : next ≤ id)
    (name : String)
    {base : Option ClassType} (hb : ∀ b ∈ base, b ∈ cs) :
    Declared (id + 1) (declare id name base :: cs)
  | exception {next : Nat} {cs : List ClassType} (h : Declared next cs) {id : Nat} (hid : next ≤ id)
    (name : String) {base : Option ClassType} (hb : ∀ b ∈ base, b ∈ cs) :
    Declared (id + 1) (declareException id name base :: cs)

/-- Ids tell the classes apart, and the bases are there too. -/
structure Identifies (next : Nat) (cs : List ClassType) : Prop where
  old {c : ClassType} : c ∈ cs → c.id < next
  base {c b : ClassType} : c ∈ cs → c.base? = some b → b ∈ cs
  eq {c d : ClassType} : c ∈ cs → d ∈ cs → c.id = d.id → c = d
  root : ClassType.exception ∈ cs

theorem Identifies.declare {id : Nat} (h : Identifies next cs) (hid : next ≤ id) (name : String)
    {base : Option ClassType} (hb : ∀ b ∈ base, b ∈ cs) :
    Identifies (id + 1) (ClassType.declare id name base :: cs) := by
  have hnew : (ClassType.declare id name base).id = id := by cases base <;> rfl
  have hbase : (ClassType.declare id name base).base? = base := by cases base <;> rfl
  have hlt {c : ClassType} (hc : c ∈ cs) : c.id < id := Nat.lt_of_lt_of_le (h.old hc) hid
  refine ⟨fun hc => ?_, fun hc hcb => ?_, fun hc hd hcd => ?_, List.mem_cons_of_mem _ h.root⟩
  · rcases List.mem_cons.mp hc with rfl | hc
    · omega
    · exact Nat.lt_succ_of_lt (hlt hc)
  · rcases List.mem_cons.mp hc with rfl | hc
    · rw [hbase] at hcb
      exact List.mem_cons_of_mem _ (hb _ hcb)
    · exact List.mem_cons_of_mem _ (h.base hc hcb)
  · rcases List.mem_cons.mp hc with rfl | hc <;> rcases List.mem_cons.mp hd with rfl | hd
    · rfl
    · have := hlt hd
      omega
    · have := hlt hc
      omega
    · exact h.eq hc hd hcd

theorem Declared.identifies (h : Declared next cs) : Identifies next cs := by
  induction h with
  | builtin =>
    have hold : ∀ c ∈ ClassType.builtin, c.id < firstFreeId := by decide
    have hbase : ∀ c ∈ ClassType.builtin, ∀ b ∈ c.base?, b ∈ ClassType.builtin := by decide
    have heq : ∀ c ∈ ClassType.builtin, ∀ d ∈ ClassType.builtin, c.id = d.id → c = d := by decide
    exact ⟨hold _, (hbase _ · _), (heq _ · _), by decide⟩
  | plain _ hid name hb ih => exact ih.declare hid name hb
  | @exception next cs _ id hid name base hb ih =>
    change Identifies (id + 1)
      (ClassType.declare id name (some (base.getD ClassType.exception)) :: cs)
    refine ih.declare hid name ?_
    rintro b ⟨⟩
    cases base with
    | none => exact ih.root
    | some b => exact hb b rfl

theorem ne_of_id_ne (h : c.id ≠ d.id) : c ≠ d :=
  fun hcd => h (congrArg id hcd)

/-- The search ends after as many rounds as the chain is long. -/
theorem search_eq (h : Identifies next cs) (hc : c ∈ cs) (hd : d ∈ cs) {n : Nat}
    (hn : c.lineage.length < n) : search d n (some c) = some (c.derivesFrom d) := by
  induction c generalizing n with
  | root i name =>
    obtain ⟨m, rfl⟩ : ∃ m, n = m + 2 :=
      ⟨n - 2, by simp only [lineage, List.length_singleton] at hn; omega⟩
    rw [search]
    split
    · rename_i hid
      rw [h.eq hc hd hid, derivesFrom_self]
    · rename_i hid
      simp [search, base?, derivesFrom, ne_of_id_ne hid]
  | derived i name b ih =>
    obtain ⟨m, rfl⟩ : ∃ m, n = m + 1 := ⟨n - 1, by omega⟩
    rw [search]
    split
    · rename_i hid
      rw [h.eq hc hd hid, derivesFrom_self]
    · rename_i hid
      have hm : b.lineage.length < m := by simpa [lineage] using hn
      rw [base?, ih (h.base hc rfl) hm]
      simp [derivesFrom, ne_of_id_ne hid]

end ClassType

namespace Ty

variable {t u : Ty} {P : ClassType → Prop}

mutual

/-- Every class that the type names satisfies `P`. -/
def Over (P : ClassType → Prop) : Ty → Prop
  | .array e | .list e => e.Over P
  | .fn ps r => OverAll P ps ∧ r.Over P
  | .cls c => P c
  | _ => True

def OverAll (P : ClassType → Prop) : List Ty → Prop
  | [] => True
  | t :: ts => t.Over P ∧ OverAll P ts

end

mutual

/-- The type with nothing left of its classes but their ids. -/
def byId : Ty → Ty
  | .array e => .array e.byId
  | .list e => .list e.byId
  | .fn ps r => .fn (allById ps) r.byId
  | .cls c => .cls (.root c.id "")
  | t => t

def allById : List Ty → List Ty
  | [] => []
  | t :: ts => t.byId :: allById ts

end

mutual

theorem eq_of_byId (h : ∀ c d, P c → P d → c.id = d.id → c = d) {t u : Ty} (ht : t.Over P)
    (hu : u.Over P) (heq : t.byId = u.byId) : t = u := by
  cases t <;> cases u <;>
    simp only [byId, reduceCtorEq, array.injEq, list.injEq, fn.injEq, cls.injEq,
    ClassType.root.injEq, and_true, int.injEq] at heq ⊢
  case array => exact eq_of_byId h ht hu heq
  case list => exact eq_of_byId h ht hu heq
  case fn => exact ⟨eq_of_allById h ht.1 hu.1 heq.1, eq_of_byId h ht.2 hu.2 heq.2⟩
  case cls => exact h _ _ ht hu heq
  case int => exact heq

theorem eq_of_allById (h : ∀ c d, P c → P d → c.id = d.id → c = d) {ts us : List Ty}
    (ht : OverAll P ts) (hu : OverAll P us) (heq : allById ts = allById us) : ts = us := by
  cases ts <;> cases us <;> simp only [allById, reduceCtorEq, List.cons.injEq] at heq ⊢
  exact ⟨eq_of_byId h ht.1 hu.1 heq.1, eq_of_allById h ht.2 hu.2 heq.2⟩

end

theorem accepts_antisymm (h : t.accepts u) (h' : u.accepts t) : t = u := by
  rcases accepts_iff.mp h with rfl | ⟨rfl, hu⟩ | ⟨c, d, rfl, rfl, hd⟩
  · rfl
  · rcases accepts_iff.mp h' with rfl | ⟨rfl, _⟩ | ⟨_, _, _, hc, _⟩
    · rfl
    · rfl
    · cases hc
  · rcases accepts_iff.mp h' with hc | ⟨hc, _⟩ | ⟨_, _, hd', hc', hc⟩
    · exact hc.symm
    · cases hc
    · cases hd'
      cases hc'
      rw [ClassType.derivesFrom_antisymm hd hc]

end Ty

theorem Value.isInstanceOf_of_accepts {v : Value} {t u : Ty} (hu : u.accepts t)
    (h : v.isInstanceOf t) : v.isInstanceOf u := by
  cases v with
  | null | void => cases h
  | _ => exact Ty.accepts_trans hu h

/-- Storability is reflexive, transitive and antisymmetric, and keeps instances. What a class
derives from is itself and its chain of bases, which ends. Of the classes declared so far, as many
rounds as the chain is long settle whether one derives from another, and ids tell them and the types
over them apart. -/
theorem assignability_partial_order :
    (∀ t : Ty, t.accepts t) ∧
    (∀ t u w : Ty, t.accepts u → u.accepts w → t.accepts w) ∧
    (∀ t u : Ty, t.accepts u → u.accepts t → t = u) ∧
    (WellFounded fun b c : ClassType => c.base? = some b) ∧
    (∀ c d : ClassType, c.derivesFrom d ↔ d ∈ c.lineage) ∧
    (∀ (v : Value) (t u : Ty), u.accepts t → v.isInstanceOf t → v.isInstanceOf u) ∧
    (∀ (v : Value) (base c : ClassType), c.derivesFrom base → v.isInstanceOf (.cls c) →
      v.isInstanceOf (.cls base)) ∧
    ∀ next cs, ClassType.Declared next cs →
      (∀ c ∈ cs, ∀ d ∈ cs, (c.id = d.id ↔ c = d) ∧
        ∀ n, c.lineage.length < n → ClassType.search d n (some c) = some (c.derivesFrom d)) ∧
      ∀ t u : Ty, t.Over (· ∈ cs) → u.Over (· ∈ cs) → (t.byId = u.byId ↔ t = u) := by
  refine ⟨Ty.accepts_self, fun _ _ _ => Ty.accepts_trans, fun _ _ => Ty.accepts_antisymm,
    ClassType.wellFounded_base, fun _ _ => ClassType.derivesFrom_iff_mem_lineage,
    fun _ _ _ => Value.isInstanceOf_of_accepts, fun v base c hc => ?_, fun next cs h => ⟨?_, ?_⟩⟩
  · exact Value.isInstanceOf_of_accepts
      (Ty.accepts_iff.mpr (Or.inr (Or.inr ⟨base, c, rfl, rfl, hc⟩)))
  · intro c hc d hd
    exact ⟨⟨h.identifies.eq hc hd, congrArg _⟩,
      fun n hn => ClassType.search_eq h.identifies hc hd hn⟩
  · intro t u ht hu
    exact ⟨Ty.eq_of_byId (fun c d => h.identifies.eq) ht hu, congrArg _⟩

/-- A plain class, one under it, and an exception of the name of the first. -/
theorem puppy_is_animal :
    let animal := ClassType.declare 8 "Animal" none
    let puppy := ClassType.declare 9 "Puppy" (some animal)
    let fault := ClassType.declareException 12 "Animal" none
    ClassType.Declared 13 (fault :: puppy :: animal :: ClassType.builtin) ∧
    ClassType.search animal 3 (some puppy) = some true ∧
    ClassType.search fault 3 (some puppy) = some false ∧
    (Value.object puppy 0).isInstanceOf (.cls animal) ∧
    (Ty.byId (.list (.cls animal)) = Ty.byId (.list (.cls fault)) ↔
      Ty.list (.cls animal) = .list (.cls fault)) := by
  intro animal puppy fault
  have ha : ClassType.Declared 9 (animal :: ClassType.builtin) :=
    .plain .builtin (Nat.le_refl 8) _ (by simp)
  have hp : ClassType.Declared 10 (puppy :: animal :: ClassType.builtin) :=
    .plain ha (Nat.le_refl 9) _ (by simp)
  have hf : ClassType.Declared 13 (fault :: puppy :: animal :: ClassType.builtin) :=
    .exception hp (by decide : 10 ≤ 12) _ (by simp)
  obtain ⟨-, -, -, -, -, -, hinstance, hdeclared⟩ := assignability_partial_order
  obtain ⟨hsearch, htypes⟩ := hdeclared _ _ hf
  refine ⟨hf, (hsearch puppy (by simp) animal (by simp)).2 3 (by decide),
    (hsearch puppy (by simp) fault (by simp)).2 3 (by decide), ?_, ?_⟩
  · exact hinstance (.object puppy 0) animal puppy (by decide) (by decide)
  · exact htypes (.list (.cls animal)) (.list (.cls fault)) (by simp [Ty.Over]) (by simp [Ty.Over])

end ExprTree
