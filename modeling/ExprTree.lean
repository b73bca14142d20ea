import ExprTree.Catalog
import ExprTree.Scopes
import ExprTree.Rewrite.Rules
import ExprTree.Proofs.Balance
import ExprTree.Proofs.BudgetTermination
import ExprTree.Proofs.BudgetTransparency
import ExprTree.Proofs.BudgetTrip
import ExprTree.Proofs.ClosureIsolation
import ExprTree.Proofs.FatalErrors
import ExprTree.Proofs.GuardedRule
import ExprTree.Proofs.LabelScope
import ExprTree.Proofs.LexicalScope
import ExprTree.Proofs.LoopBlock
import ExprTree.Proofs.Renaming
import ExprTree.Proofs.Reuse
import ExprTree.Proofs.Sharing
import ExprTree.Proofs.Substitution
import ExprTree.Proofs.TypeSoundness
import ExprTree.Proofs.TypedRewriting
import ExprTree.Proofs.SwitchChain
import ExprTree.Proofs.CompoundExpansion
import ExprTree.Proofs.AtomicAssignment
import ExprTree.Proofs.IntegerArithmetic
import ExprTree.Proofs.CheckedArithmetic
import ExprTree.Proofs.NumericOrder
import ExprTree.Proofs.LosslessConversion
import ExprTree.Proofs.OperatorRules
import ExprTree.Proofs.Concatenation
import ExprTree.Proofs.LocationTypes
import ExprTree.Proofs.DecimalPower
import ExprTree.Proofs.Coalescing
import ExprTree.Proofs.Rendering
import ExprTree.Proofs.UpdateLaws
import ExprTree.Proofs.LazySequence
import ExprTree.Proofs.TypeOrder
import ExprTree.Proofs.ArrayLength
import ExprTree.Proofs.LinkedScopes
