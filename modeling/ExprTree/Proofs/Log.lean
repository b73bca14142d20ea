import ExprTree.Proofs.Trace

/-! Logs tell where the evaluation of a node starts and how it ends, which a trace does not, and
keep the calls of all interpreters in one list. -/
namespace ExprTree

inductive Entry where
  | start (n : Node)
  | ended (r : Except Signal Value)
  | use (c : HandleCall)
  | call (f : Value) (args : List Value)
  | assign (p : Param) (v : Value)
  | element (addr position : Nat) (v : Value)

abbrev Log := List Entry

instance : Recording Entry where
  use := .use
  call := .call
  assign := .assign
  element := .element
  hang := []
  inner l := l
  convert _ _ l := l

/-- The log of the evaluation of a node to a depth. Without a step left it ends as soon as it
starts. -/
def log (host : Host) : Nat → Node → State → Log
  | 0, _, _ => []
  | n + 1, node, s => .start node ::
    ((if s.spent?.isSome then [] else
      node.plan.trace ⟨⟨host, n, eval host n⟩, log host n⟩ s.ticked) ++
      (eval host (n + 1) node s).after fun r _ => [.ended r])

/-- The logger of a given depth. -/
def logger (host : Host) (depth : Nat) : Recorder Entry := ⟨evaluator host depth, log host depth⟩

end ExprTree
