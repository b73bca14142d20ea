import ExprTree.Build.Operator
import ExprTree.Build.Control
import ExprTree.Build.Access

/-! Replacing the children of a node. A node whose children are all the same as before is returned
as it is; any other is built anew, with a fresh id, by its factory and so checked again. -/
namespace ExprTree

/-- Sameness by identity, not by content. -/
class Identified (α : Type) where
  same : α → α → Bool

export Identified (same)

instance : Identified Node := ⟨Node.same⟩
instance : Identified Param := ⟨fun a b => a.id == b.id⟩
instance : Identified Label := ⟨fun a b => a.id == b.id⟩
instance : Identified Lambda := ⟨fun a b => a.id == b.id⟩
instance : Identified Construction := ⟨fun a b => a.id == b.id⟩
instance : Identified SwitchCase := ⟨fun a b => a.id == b.id⟩
instance : Identified CatchClause := ⟨fun a b => a.id == b.id⟩
instance : Identified ElementInit := ⟨fun a b => a.id == b.id⟩
instance : Identified MemberBinding := ⟨fun a b => a.id == b.id⟩

section

variable {α : Type} [Identified α]

def sameOption : Option α → Option α → Bool
  | some a, some b => same a b
  | none, none => true
  | _, _ => false

/-- Sequences are the same when their elements are, one by one. -/
def sameList : List α → List α → Bool
  | [], [] => true
  | a :: as, b :: bs => same a b && sameList as bs
  | _, _ => false

instance : Identified (Option α) := ⟨sameOption⟩
instance : Identified (List α) := ⟨sameList⟩

end

/-- The forms of nodes that differ in their children. -/
inductive Shape where
  | leaf | binary | unary | typeTest | conditional | call | invoke | new | newArray | member | index
  | lambda | block | loop | label | goto | switch | guarded | listInit | memberInit | extension

@[reducible] def Node.shape : Node → Shape
  | .constant .. => .leaf
  | .default .. => .leaf
  | .param _ => .leaf
  | .binary .. => .binary
  | .unary .. => .unary
  | .typeTest .. => .typeTest
  | .conditional .. => .conditional
  | .call .. => .call
  | .invoke .. => .invoke
  | .new _ => .new
  | .newArray .. => .newArray
  | .member .. => .member
  | .index .. => .index
  | .lambda _ => .lambda
  | .block .. => .block
  | .loop .. => .loop
  | .label .. => .label
  | .goto .. => .goto
  | .switch .. => .switch
  | .guarded .. => .guarded
  | .listInit .. => .listInit
  | .memberInit .. => .memberInit
  | .extension .. => .extension

/-- The children of a node, labels and bound parameters among them. -/
inductive Parts : Shape → Type where
  | leaf : Parts .leaf
  | binary (left right : Node) (conversion : Option Lambda) : Parts .binary
  | unary (operand : Option Node) : Parts .unary
  | typeTest (operand : Node) : Parts .typeTest
  | conditional (test ifTrue ifFalse : Node) : Parts .conditional
  | call (object : Option Node) (args : List Node) : Parts .call
  | invoke (callee : Node) (args : List Node) : Parts .invoke
  | new (args : List Node) : Parts .new
  | newArray (items : List Node) : Parts .newArray
  | member (object : Option Node) : Parts .member
  | index (object : Node) (args : List Node) : Parts .index
  | lambda (body : Node) (params : List Param) : Parts .lambda
  | block (vars : List Param) (body : List Node) : Parts .block
  | loop (breakLabel continueLabel : Option Label) (body : Node) : Parts .loop
  | label (target : Label) (fallback : Option Node) : Parts .label
  | goto (target : Label) (value : Option Node) : Parts .goto
  | switch (value : Node) (cases : List SwitchCase) (fallback : Option Node) : Parts .switch
  | guarded (body : Node) (handlers : List CatchClause) (finalizer fault : Option Node) :
    Parts .guarded
  | listInit (new : Construction) (inits : List ElementInit) : Parts .listInit
  | memberInit (new : Construction) (bindings : List MemberBinding) : Parts .memberInit
  | extension (reduction : Option Node) : Parts .extension

def Node.parts : (n : Node) → Parts n.shape
  | .constant .. => .leaf
  | .default .. => .leaf
  | .param _ => .leaf
  | .binary _ _ l r _ c _ => .binary l r c
  | .unary _ _ x _ _ => .unary x
  | .typeTest _ _ x _ => .typeTest x
  | .conditional _ t a b _ => .conditional t a b
  | .call _ x _ as => .call x as
  | .invoke _ f as _ => .invoke f as
  | .new c => .new c.args
  | .newArray _ _ _ is => .newArray is
  | .member _ x _ => .member x
  | .index _ x _ as _ => .index x as
  | .lambda f => .lambda f.body f.params
  | .block _ vs b _ => .block vs b
  | .loop _ b l c => .loop l c b
  | .label _ l x => .label l x
  | .goto _ _ l x _ => .goto l x
  | .switch _ v cs x _ _ => .switch v cs x
  | .guarded _ b hs f x => .guarded b hs f x
  | .listInit _ c is => .listInit c is
  | .memberInit _ c bs => .memberInit c bs
  | .extension _ _ _ r _ => .extension r

def Parts.same {s : Shape} : Parts s → Parts s → Bool
  | .leaf, .leaf => true
  | .binary l r c, .binary l' r' c' =>
    Identified.same l l' && Identified.same r r' && Identified.same c c'
  | .unary x, .unary x' => Identified.same x x'
  | .typeTest x, .typeTest x' => Identified.same x x'
  | .conditional t a b, .conditional t' a' b' =>
    Identified.same t t' && Identified.same a a' && Identified.same b b'
  | .call x as, .call x' as' => Identified.same x x' && Identified.same as as'
  | .invoke f as, .invoke f' as' => Identified.same f f' && Identified.same as as'
  | .new as, .new as' => Identified.same as as'
  | .newArray is, .newArray is' => Identified.same is is'
  | .member x, .member x' => Identified.same x x'
  | .index x as, .index x' as' => Identified.same x x' && Identified.same as as'
  | .lambda b ps, .lambda b' ps' => Identified.same b b' && Identified.same ps ps'
  | .block vs b, .block vs' b' => Identified.same vs vs' && Identified.same b b'
  | .loop l c b, .loop l' c' b' =>
    Identified.same b b' && Identified.same l l' && Identified.same c c'
  | .label l x, .label l' x' => Identified.same l l' && Identified.same x x'
  | .goto l x, .goto l' x' => Identified.same l l' && Identified.same x x'
  | .switch v cs x, .switch v' cs' x' =>
    Identified.same v v' && Identified.same cs cs' && Identified.same x x'
  | .guarded b hs f x, .guarded b' hs' f' x' =>
    Identified.same b b' && Identified.same hs hs' && Identified.same f f' && Identified.same x x'
  | .listInit c is, .listInit c' is' => Identified.same c c' && Identified.same is is'
  | .memberInit c bs, .memberInit c' bs' => Identified.same c c' && Identified.same bs bs'
  | .extension r, .extension r' => Identified.same r r'

open Build (Result)

def Lambda.update (fresh : Nat) (f : Lambda) (body : Node) (params : List Param) : Result Lambda :=
  if same f.body body && same f.params params then .ok f
  else Build.lambda fresh f.name body params (some f.ret)

def Construction.update (fresh : Nat) (c : Construction) (args : List Node) : Result Construction :=
  if same c.args args then .ok c else Build.construction fresh c.ctor args

def SwitchCase.update (fresh : Nat) (c : SwitchCase) (tests : List Node) (body : Node) :
    Result SwitchCase :=
  if same c.tests tests && same c.body body then .ok c else Build.switchCase fresh tests body

def CatchClause.update (fresh : Nat) (c : CatchClause) (var : Option Param) (filter : Option Node)
    (body : Node) : Result CatchClause :=
  if same c.var var && same c.filter filter && same c.body body then .ok c
  else Build.catchClause fresh c.test var filter body

def ElementInit.update (fresh : Nat) (i : ElementInit) (args : List Node) : Result ElementInit :=
  if same i.args args then .ok i else Build.elementInit fresh i.add args

namespace MemberBinding

def updateValue (fresh : Nat) (b : MemberBinding) (value : Node) : Result MemberBinding :=
  match b with
  | .assign _ m v => if same v value then .ok b else Build.assignBinding fresh m value
  | _ => .error (.invalid "not an assignment binding")

def updateBindings (fresh : Nat) (b : MemberBinding) (bindings : List MemberBinding) :
    Result MemberBinding :=
  match b with
  | .nested _ m bs => if same bs bindings then .ok b else Build.nestedBinding fresh m bindings
  | _ => .error (.invalid "not a nested member binding")

def updateInits (fresh : Nat) (b : MemberBinding) (inits : List ElementInit) :
    Result MemberBinding :=
  match b with
  | .list _ m is => if same is inits then .ok b else Build.listBinding fresh m inits
  | _ => .error (.invalid "not a list binding")

end MemberBinding

/-- The node built anew over other children, all else kept. -/
def Node.rebuild (fresh : Nat) : (n : Node) → Parts n.shape → Result Node
  | .constant id v t, _ => .ok (.constant id v t)
  | .default id t, _ => .ok (.default id t)
  | .param p, _ => .ok (.param p)
  | .binary _ op _ _ m _ _, .binary l r c => Build.binary fresh (.binary op) l r m c
  | .unary _ op _ m ty, .unary x =>
    Build.unary fresh (.unary op) x (if op.takesType || op == .throw then some ty else none) m
  | .typeTest _ t _ target, .typeTest x => Build.typeTest fresh (.typeTest t) x target
  | .conditional _ _ _ _ ty, .conditional t a b => Build.conditional fresh t a b (some ty)
  | .call _ _ m _, .call x as => Build.call fresh x m as
  | .invoke .., .invoke f as => Build.invoke fresh f as
  | .new c, .new as => (Build.construction fresh c.ctor as).map .new
  | .newArray _ form elem _, .newArray is => Build.newArray fresh (.newArray form) elem is
  | .member _ _ m, .member x => Build.member fresh x m
  | .index _ _ i _ _, .index x as => Build.index fresh x i as
  | .lambda f, .lambda b ps => (Build.lambda fresh f.name b ps (some f.ret)).map .lambda
  | .block _ _ _ ty, .block vs b => Build.block fresh vs b (some ty)
  | .loop .., .loop l c b => Build.loop fresh b l c
  | .label .., .label l x => Build.label fresh l x
  | .goto _ kind _ _ ty, .goto l x => Build.goto fresh kind l x (some ty)
  | .switch _ _ _ _ m ty, .switch v cs x => Build.switch fresh v cs x m (some ty)
  | .guarded .., .guarded b hs f x => Build.guarded fresh b hs f x
  | .listInit .., .listInit c is => Build.listInit fresh c is
  | .memberInit .., .memberInit c bs => Build.memberInit fresh c bs
  | .extension _ name ty _ isSealed, .extension r => .ok (.extension fresh name ty r isSealed)

/-- The node itself when its children are the same, else the node built anew over the new ones. -/
def Node.update (fresh : Nat) (n : Node) (parts : Parts n.shape) : Result Node :=
  if n.parts.same parts then .ok n else n.rebuild fresh parts

end ExprTree
