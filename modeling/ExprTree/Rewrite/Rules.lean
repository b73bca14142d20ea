import ExprTree.Rewrite
import ExprTree.Operator.Unary

/-! Rewriting by rules: the first rule that fires replaces a node, labels are exchanged, and
operators on constants may be folded. Every visit is noted. -/
namespace ExprTree.Rewrite

inductive Pattern where
  | kind (k : NodeKind)
  | constant (v : Value)
  | param (id : Nat)

def Pattern.test : Pattern → Node → Bool
  | .kind k, n => decide (n.kind = k)
  | .constant v, .constant _ w _ => w.eqv v
  | .param id, .param p => p.id == id
  | _, _ => false

/-- A rule fires at every match, or only at match number `nth`, and then builds its replacement
anew, from the next free id and the shared state. -/
structure Rule (σ : Type) where
  pattern : Pattern
  nth : Option Nat
  replacement : Nat → σ → Build.Result Node × Nat × σ

structure Rules (σ : Type) where
  rules : List (Rule σ)
  labels : List (Label × Label)
  fold : Bool
  store : σ → Store

/-- The visits so far, last first, and how often each rule has matched. -/
structure Progress (σ : Type) where
  shared : σ
  visits : List String
  matched : List Nat

namespace Rules

variable {σ : Type}

/-- Counts a match of every rule up to the first that fires, and gives that one. -/
def select (n : Node) : List (Rule σ) → List Nat → Option (Rule σ) × List Nat
  | rule :: rules, count :: counts =>
    if rule.pattern.test n then
      if rule.nth.all (· == count) then (some rule, (count + 1) :: counts)
      else
        let (found, counts) := select n rules counts
        (found, (count + 1) :: counts)
    else
      let (found, counts) := select n rules counts
      (found, count :: counts)
  | _, counts => (none, counts)

private def note (line : String) : Visit (Progress σ) Unit :=
  modify fun (p, next) => ({ p with visits := line :: p.visits }, next)

private def replace (rule : Rule σ) : Visit (Progress σ) Node := do
  let (p, next) ← get
  let (built, next, shared) := rule.replacement next p.shared
  set ({ p with shared }, next)
  match built with
  | .ok n => return n
  | .error e => throw (.build e)

/-- The constant that an operator on constants stands for, if it has a value. -/
def folded? (s : Store) : Node → Option Value
  | .binary _ op (.constant _ a _) (.constant _ b _) _ _ _ =>
    ((NodeKind.binary op).applyBinary s a b).toOption
  | .unary _ op (some (.constant _ a _)) _ _ => ((NodeKind.unary op).applyUnary s a).toOption
  | _ => none

private def foldIn (rs : Rules σ) (n : Node) (descend : Visit (Progress σ) Node) :
    Visit (Progress σ) Node := do
  let m ← descend
  if !rs.fold || !(n.kind.isBinary || n.kind.isUnary) then return m
  match folded? (rs.store (← get).1.shared) m with
  | some v => Visit.build fun id => .ok (Build.constant id v)
  | none => return m

def rewriter (rs : Rules σ) : Rewriter (Progress σ) where
  node n descend := do
    note n.kind.name
    let (p, next) ← get
    let (found, matched) := select n rs.rules p.matched
    set ({ p with matched }, next)
    match found with
    | some rule => replace rule
    | none => descend
  variant := foldIn rs
  label l := do
    note ("label " ++ l.text)
    return ((rs.labels.find? fun (source, _) => source == l).map (·.2)).getD l

def start (rs : Rules σ) (shared : σ) : Progress σ := ⟨shared, [], rs.rules.map fun _ => 0⟩

end Rules

end ExprTree.Rewrite
