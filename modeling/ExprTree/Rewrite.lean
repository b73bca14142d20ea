import ExprTree.Update

/-! Rewriting a tree bottom up. A rewriter answers for nodes, labels and clauses, each time holding
the default descent, which visits the children in order and updates the node. -/
namespace ExprTree

/-- A visit threads the rewriter's state and the next free id, which also survive an error. -/
abbrev Visit (σ α : Type) := ExceptT RewriteError (StateM (σ × Nat)) α

namespace Visit

variable {σ α : Type}

def fresh : Visit σ Nat := modifyGet fun (s, n) => (n, s, n + 1)

/-- Builds with a fresh id. -/
def build (make : Nat → Build.Result α) : Visit σ α := do
  match make (← fresh) with
  | .ok a => return a
  | .error e => throw (.build e)

def all : List (Visit σ α) → Visit σ (List α)
  | [] => return []
  | v :: vs => do
    let a ← v
    return a :: (← all vs)

variable [Identified α]

/-- Runs the visits of the items in order; `none` when each item came back the same. -/
def sequence : List (α × Visit σ α) → Visit σ (Option (List α))
  | [] => return none
  | (old, v) :: rest => do
    let new ← v
    if same new old then return (← sequence rest).map (old :: ·)
    else return some (new :: (← all (rest.map (·.2))))

/-- The items after their visits, the given list itself when nothing changed. -/
def items (old : List α) (visits : List (α × Visit σ α)) : Visit σ (List α) := do
  return (← sequence visits).getD old

/-- Visits each element of a list. -/
def ofList (f : α → Visit σ α) (xs : List α) : Visit σ (Option (List α)) :=
  sequence (xs.map fun x => (x, f x))

/-- A child that must stay a parameter. -/
def asParam (context : String) (v : Visit σ Node) : Visit σ Param := do
  match ← v with
  | .param p => return p
  | n => throw (.wrongNode context "parameter" n.kind)

def asLambda (context : String) (v : Visit σ Node) : Visit σ Lambda := do
  match ← v with
  | .lambda f => return f
  | n => throw (.wrongNode context "lambda" n.kind)

def asConstruction (context : String) (v : Visit σ Node) : Visit σ Construction := do
  match ← v with
  | .new c => return c
  | n => throw (.wrongNode context "new" n.kind)

end Visit

/-- Each answer is given the default one as a visit that it may run. `node` is asked about every
node, and `variant` about every node whose `node` answer runs the default. -/
structure Rewriter (σ : Type) where
  node : Node → Visit σ Node → Visit σ Node := fun _ descend => descend
  variant : Node → Visit σ Node → Visit σ Node := fun _ descend => descend
  label : Label → Visit σ Label := fun l => return l
  switchCase : SwitchCase → Visit σ SwitchCase → Visit σ SwitchCase := fun _ descend => descend
  catchClause : CatchClause → Visit σ CatchClause → Visit σ CatchClause := fun _ descend => descend
  elementInit : ElementInit → Visit σ ElementInit → Visit σ ElementInit := fun _ descend => descend
  memberBinding : MemberBinding → Visit σ MemberBinding → Visit σ MemberBinding :=
    fun _ descend => descend

namespace Rewriter

variable {σ : Type} (r : Rewriter σ)

def answer (n : Node) (descend : Visit σ Node) : Visit σ Node :=
  r.node n (r.variant n descend)

def update (n : Node) (parts : Parts n.shape) : Visit σ Node := Visit.build (n.update · parts)

def visitParam (p : Param) : Visit σ Node := answer r (.param p) (return .param p)

def visitParams (context : String) (ps : List Param) : Visit σ (List Param) :=
  Visit.items ps (ps.map fun p => (p, Visit.asParam context (r.visitParam p)))

def visitLabel? : Option Label → Visit σ (Option Label)
  | none => return none
  | some l => return some (← r.label l)

mutual

def visit : Node → Visit σ Node
  | .constant id v t => answer r (.constant id v t) (return .constant id v t)
  | .default id t => answer r (.default id t) (return .default id t)
  | .param p => r.visitParam p
  | .binary id op l x m c t => answer r (.binary id op l x m c t) do
    let l' ← visit l
    let x' ← visit x
    let c' ← match c with
      | none => pure none
      | some f => some <$> Visit.asLambda "binary conversion" (visitLambda f)
    update (.binary id op l x m c t) (.binary l' x' c')
  | .unary id op x m t => answer r (.unary id op x m t) do
    let x' ← match x with
      | none => pure none
      | some y => some <$> visit y
    update (.unary id op x m t) (.unary x')
  | .typeTest id test x t => answer r (.typeTest id test x t) do
    update (.typeTest id test x t) (.typeTest (← visit x))
  | .conditional id test a b t => answer r (.conditional id test a b t) do
    let test' ← visit test
    let a' ← visit a
    let b' ← visit b
    update (.conditional id test a b t) (.conditional test' a' b')
  | .call id x m as => answer r (.call id x m as) do
    let x' ← match x with
      | none => pure none
      | some y => some <$> visit y
    let as' ← Visit.items as (visitEach as)
    update (.call id x m as) (.call x' as')
  | .invoke id f as t => answer r (.invoke id f as t) do
    let f' ← visit f
    let as' ← Visit.items as (visitEach as)
    update (.invoke id f as t) (.invoke f' as')
  | .new c => visitConstruction c
  | .newArray id form e is => answer r (.newArray id form e is) do
    let is' ← Visit.items is (visitEach is)
    update (.newArray id form e is) (.newArray is')
  | .member id x m => answer r (.member id x m) do
    let x' ← match x with
      | none => pure none
      | some y => some <$> visit y
    update (.member id x m) (.member x')
  | .index id x i as t => answer r (.index id x i as t) do
    let x' ← visit x
    let as' ← Visit.items as (visitEach as)
    update (.index id x i as t) (.index x' as')
  | .lambda f => visitLambda f
  | .block id vs body t => answer r (.block id vs body t) do
    let vs' ← r.visitParams "block variable" vs
    let body' ← Visit.items body (visitEach body)
    update (.block id vs body t) (.block vs' body')
  | .loop id body b c => answer r (.loop id body b c) do
    let b' ← r.visitLabel? b
    let c' ← r.visitLabel? c
    let body' ← visit body
    update (.loop id body b c) (.loop b' c' body')
  | .label id l x => answer r (.label id l x) do
    let l' ← r.label l
    let x' ← match x with
      | none => pure none
      | some y => some <$> visit y
    update (.label id l x) (.label l' x')
  | .goto id kind l x t => answer r (.goto id kind l x t) do
    let l' ← r.label l
    let x' ← match x with
      | none => pure none
      | some y => some <$> visit y
    update (.goto id kind l x t) (.goto l' x')
  | .switch id v cs x m t => answer r (.switch id v cs x m t) do
    let v' ← visit v
    let cs' ← Visit.items cs (visitEachCase cs)
    let x' ← match x with
      | none => pure none
      | some y => some <$> visit y
    update (.switch id v cs x m t) (.switch v' cs' x')
  | .guarded id body hs fin fault => answer r (.guarded id body hs fin fault) do
    let body' ← visit body
    let hs' ← Visit.items hs (visitEachClause hs)
    let fin' ← match fin with
      | none => pure none
      | some y => some <$> visit y
    let fault' ← match fault with
      | none => pure none
      | some y => some <$> visit y
    update (.guarded id body hs fin fault) (.guarded body' hs' fin' fault')
  | .listInit id c is => answer r (.listInit id c is) do
    let c' ← Visit.asConstruction "list initializer constructor" (visitConstruction c)
    let is' ← Visit.items is (visitEachInit is)
    update (.listInit id c is) (.listInit c' is')
  | .memberInit id c bs => answer r (.memberInit id c bs) do
    let c' ← Visit.asConstruction "member initializer constructor" (visitConstruction c)
    let bs' ← Visit.items bs (visitEachBinding bs)
    update (.memberInit id c bs) (.memberInit c' bs')
  | .extension id name t x isSealed => answer r (.extension id name t x isSealed) do
    if isSealed then return .extension id name t x isSealed
    let x' ← match x with
      | none => pure none
      | some y => some <$> visit y
    update (.extension id name t x isSealed) (.extension x')

def visitLambda : Lambda → Visit σ Node
  | .mk id name body ps t => answer r (.lambda (.mk id name body ps t)) do
    let body' ← visit body
    let ps' ← r.visitParams "lambda parameter" ps
    update (.lambda (.mk id name body ps t)) (.lambda body' ps')

def visitConstruction : Construction → Visit σ Node
  | .mk id ctor as => answer r (.new (.mk id ctor as)) do
    let as' ← Visit.items as (visitEach as)
    update (.new (.mk id ctor as)) (.new as')

def visitEach : List Node → List (Node × Visit σ Node)
  | [] => []
  | n :: ns => (n, visit n) :: visitEach ns

def visitCase : SwitchCase → Visit σ SwitchCase
  | .mk id tests body => r.switchCase (.mk id tests body) do
    let tests' ← Visit.items tests (visitEach tests)
    let body' ← visit body
    Visit.build ((SwitchCase.mk id tests body).update · tests' body')

def visitEachCase : List SwitchCase → List (SwitchCase × Visit σ SwitchCase)
  | [] => []
  | c :: cs => (c, visitCase c) :: visitEachCase cs

def visitClause : CatchClause → Visit σ CatchClause
  | .mk id test var filter body => r.catchClause (.mk id test var filter body) do
    let var' ← match var with
      | none => pure none
      | some p => some <$> Visit.asParam "catch variable" (r.visitParam p)
    let filter' ← match filter with
      | none => pure none
      | some y => some <$> visit y
    let body' ← visit body
    Visit.build ((CatchClause.mk id test var filter body).update · var' filter' body')

def visitEachClause : List CatchClause → List (CatchClause × Visit σ CatchClause)
  | [] => []
  | c :: cs => (c, visitClause c) :: visitEachClause cs

def visitInit : ElementInit → Visit σ ElementInit
  | .mk id add as => r.elementInit (.mk id add as) do
    let as' ← Visit.items as (visitEach as)
    Visit.build ((ElementInit.mk id add as).update · as')

def visitEachInit : List ElementInit → List (ElementInit × Visit σ ElementInit)
  | [] => []
  | i :: is => (i, visitInit i) :: visitEachInit is

def visitBinding : MemberBinding → Visit σ MemberBinding
  | .assign id m v => r.memberBinding (.assign id m v) do
    let v' ← visit v
    Visit.build ((MemberBinding.assign id m v).updateValue · v')
  | .nested id m bs => r.memberBinding (.nested id m bs) do
    let bs' ← Visit.items bs (visitEachBinding bs)
    Visit.build ((MemberBinding.nested id m bs).updateBindings · bs')
  | .list id m is => r.memberBinding (.list id m is) do
    let is' ← Visit.items is (visitEachInit is)
    Visit.build ((MemberBinding.list id m is).updateInits · is')

def visitEachBinding : List MemberBinding → List (MemberBinding × Visit σ MemberBinding)
  | [] => []
  | b :: bs => (b, visitBinding b) :: visitEachBinding bs

end

/-- Rewrites a tree from a state and the next free id. -/
def run (n : Node) (state : σ) (nextId : Nat) : Except RewriteError Node × σ × Nat :=
  (r.visit n).run.run (state, nextId)

/-- The rewriter that changes nothing. -/
def identity : Rewriter σ := {}

/-- Notes the identity of every node that it meets. -/
def census : Rewriter (List Identity) where
  node n descend := do
    modify fun (seen, next) => (n.identity :: seen, next)
    descend

end Rewriter

/-- The identities that the default descent meets. -/
def Node.reached (n : Node) : List Identity := (Rewriter.census.run n [] 0).2.1

end ExprTree
