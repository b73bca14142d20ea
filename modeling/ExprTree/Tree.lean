import ExprTree.Ty
import ExprTree.Kind
import ExprTree.Numeric.Decimal

/-! Expression trees, the values they compute, and the handles through which they reach their host.
Nodes are immutable and told apart by id: a rebuilt node has a fresh one, an untouched node keeps
its own. -/
namespace ExprTree

/-- A slot: a lambda parameter, a block variable or a catch variable, told apart by id and not by
name. -/
structure Param where
  id : Nat
  name : Option String
  ty : Ty

/-- A jump target, shared by the nodes that name it and told apart by id. -/
structure Label where
  id : Nat
  name : Option String
  ty : Ty

def Param.text (p : Param) : String := p.name.getD ("p" ++ p.id.repr)
def Label.text (l : Label) : String := l.name.getD ("L" ++ l.id.repr)

instance : BEq Label := ⟨fun a b => a.id == b.id⟩

/-- The word of a jump; every kind jumps the same way. -/
inductive JumpKind where
  | goto | breakTo | continueTo | returnTo
  deriving DecidableEq

/-- A method either appends to a list or does what the host's routine of its id does. -/
inductive MethodBody where
  | addToList | host

structure Method where
  id : Nat
  name : String
  params : List Ty
  ret : Ty
  isStatic : Bool
  body : MethodBody

/-- A constructor makes an empty list, an object with the arguments as fields, or runs the host's
routine. -/
inductive ConstructorBody where
  | list (elem : Ty)
  | object (c : ClassType) (fields : List String)
  | host

structure Constructor where
  id : Nat
  ty : Ty
  params : List Ty
  body : ConstructorBody

/-- A member is a field of its object, a static slot of the store, or a property of the host. -/
inductive MemberBody where
  | field
  | static (slot : Nat)
  | property

structure Member where
  id : Nat
  name : String
  ty : Ty
  isStatic : Bool
  canWrite : Bool
  body : MemberBody

structure Indexer where
  id : Nat
  name : String
  item : Ty
  params : List Ty
  canWrite : Bool

mutual

/-- Arrays, lists, objects and delegates live in the store and are named by address; their type goes
with the reference. -/
inductive Value where
  | void | null
  | bool (b : Bool)
  | char (c : Char)
  | int (kind : IntKind) (w : Word kind)
  | float32 (x : Float32)
  | float64 (x : Float)
  | decimal (d : Decimal)
  | str (s : String)
  | array (elem : Ty) (addr : Nat)
  | list (elem : Ty) (addr : Nat)
  | object (c : ClassType) (addr : Nat)
  | delegate (sig : Signature) (addr : Nat)
  | expr (n : Node)

inductive Node where
  | constant (id : Nat) (value : Value) (ty : Ty)
  | default (id : Nat) (ty : Ty)
  | param (p : Param)
  | binary (id : Nat) (op : BinaryOp) (left right : Node) (method : Option Method)
      (conversion : Option Lambda) (ty : Ty)
  /-- Only a rethrow has no operand. -/
  | unary (id : Nat) (op : UnaryOp) (operand : Option Node) (method : Option Method) (ty : Ty)
  | typeTest (id : Nat) (test : TypeTest) (operand : Node) (target : Ty)
  | conditional (id : Nat) (test ifTrue ifFalse : Node) (ty : Ty)
  | call (id : Nat) (object : Option Node) (method : Method) (args : List Node)
  | invoke (id : Nat) (callee : Node) (args : List Node) (ty : Ty)
  | new (c : Construction)
  | newArray (id : Nat) (form : ArrayForm) (elem : Ty) (items : List Node)
  | member (id : Nat) (object : Option Node) (member : Member)
  | index (id : Nat) (object : Node) (indexer : Option Indexer) (args : List Node) (ty : Ty)
  | lambda (f : Lambda)
  | block (id : Nat) (vars : List Param) (body : List Node) (ty : Ty)
  | loop (id : Nat) (body : Node) (breakLabel continueLabel : Option Label)
  | label (id : Nat) (target : Label) (fallback : Option Node)
  | goto (id : Nat) (kind : JumpKind) (target : Label) (value : Option Node) (ty : Ty)
  | switch (id : Nat) (value : Node) (cases : List SwitchCase) (fallback : Option Node)
      (comparer : Option Method) (ty : Ty)
  | guarded (id : Nat) (body : Node) (handlers : List CatchClause) (finalizer fault : Option Node)
  | listInit (id : Nat) (new : Construction) (inits : List ElementInit)
  | memberInit (id : Nat) (new : Construction) (bindings : List MemberBinding)
  /-- A host's own node stands for its reduction; a sealed one hides it from rewriting. -/
  | extension (id : Nat) (name : String) (ty : Ty) (reduction : Option Node) (isSealed : Bool)

inductive Lambda where
  | mk (id : Nat) (name : Option String) (body : Node) (params : List Param) (ret : Ty)

/-- A constructor call. -/
inductive Construction where
  | mk (id : Nat) (ctor : Constructor) (args : List Node)

/-- Any of the tests selects the body. -/
inductive SwitchCase where
  | mk (id : Nat) (tests : List Node) (body : Node)

inductive CatchClause where
  | mk (id : Nat) (test : Ty) (var : Option Param) (filter : Option Node) (body : Node)

inductive ElementInit where
  | mk (id : Nat) (add : Method) (args : List Node)

/-- A nested binding works on the member's present value. -/
inductive MemberBinding where
  | assign (id : Nat) (member : Member) (value : Node)
  | nested (id : Nat) (member : Member) (bindings : List MemberBinding)
  | list (id : Nat) (member : Member) (inits : List ElementInit)

end

namespace Lambda

def id : Lambda → Nat | .mk i .. => i
def name : Lambda → Option String | .mk _ n .. => n
def body : Lambda → Node | .mk _ _ b .. => b
def params : Lambda → List Param | .mk _ _ _ ps _ => ps
def ret : Lambda → Ty | .mk _ _ _ _ r => r
def signature (f : Lambda) : Signature := ⟨f.params.map Param.ty, f.ret⟩
def ty (f : Lambda) : Ty := f.signature.ty

end Lambda

namespace Construction

def id : Construction → Nat | .mk i .. => i
def ctor : Construction → Constructor | .mk _ c _ => c
def args : Construction → List Node | .mk _ _ as => as
def ty (c : Construction) : Ty := c.ctor.ty

end Construction

namespace SwitchCase

def id : SwitchCase → Nat | .mk i .. => i
def tests : SwitchCase → List Node | .mk _ ts _ => ts
def body : SwitchCase → Node | .mk _ _ b => b

end SwitchCase

namespace CatchClause

def id : CatchClause → Nat | .mk i .. => i
def test : CatchClause → Ty | .mk _ t .. => t
def var : CatchClause → Option Param | .mk _ _ v .. => v
def filter : CatchClause → Option Node | .mk _ _ _ f _ => f
def body : CatchClause → Node | .mk _ _ _ _ b => b

end CatchClause

namespace ElementInit

def id : ElementInit → Nat | .mk i .. => i
def add : ElementInit → Method | .mk _ m _ => m
def args : ElementInit → List Node | .mk _ _ as => as

end ElementInit

namespace MemberBinding

def id : MemberBinding → Nat
  | .assign i .. | .nested i .. | .list i .. => i

def member : MemberBinding → Member
  | .assign _ m _ | .nested _ m _ | .list _ m _ => m

end MemberBinding

/-- What tells nodes apart: parameters are numbered apart from all other nodes. -/
inductive Identity where
  | param (id : Nat)
  | node (id : Nat)
  deriving DecidableEq

namespace Node

def identity : Node → Identity
  | .param p => .param p.id
  | .new c => .node c.id
  | .lambda f => .node f.id
  | .constant i .. | .default i _ | .binary i .. | .unary i .. | .typeTest i .. | .conditional i ..
  | .call i .. | .invoke i .. | .newArray i .. | .member i .. | .index i .. | .block i ..
  | .loop i ..
  | .label i .. | .goto i .. | .switch i .. | .guarded i .. | .listInit i .. | .memberInit i ..
  | .extension i .. => .node i

def kind : Node → NodeKind
  | .constant .. => .constant
  | .default .. => .default
  | .param _ => .parameter
  | .binary _ op .. => .binary op
  | .unary _ op .. => .unary op
  | .typeTest _ t .. => .typeTest t
  | .conditional .. => .conditional
  | .call .. => .call
  | .invoke .. => .invoke
  | .new _ => .new
  | .newArray _ form .. => .newArray form
  | .member .. => .memberAccess
  | .index .. => .index
  | .lambda _ => .lambda
  | .block .. => .block
  | .loop .. => .loop
  | .label .. => .label
  | .goto .. => .goto
  | .switch .. => .switch
  | .guarded .. => .guarded
  | .listInit .. => .listInit
  | .memberInit .. => .memberInit
  | .extension .. => .extension

/-- The static type; a guarded node has that of its body. -/
def ty : Node → Ty
  | .constant _ _ t | .default _ t | .binary _ _ _ _ _ _ t | .unary _ _ _ _ t
  | .conditional _ _ _ _ t | .invoke _ _ _ t | .index _ _ _ _ t | .block _ _ _ t
  | .goto _ _ _ _ t | .switch _ _ _ _ _ t | .extension _ _ t _ _ => t
  | .param p => p.ty
  | .typeTest .. => .bool
  | .call _ _ m _ => m.ret
  | .new c => c.ty
  | .newArray _ _ e _ => .array e
  | .member _ _ m => m.ty
  | .lambda f => f.ty
  | .loop _ _ b _ => (b.map Label.ty).getD .void
  | .label _ l _ => l.ty
  | .guarded _ b .. => b.ty
  | .listInit _ c _ | .memberInit _ c _ => c.ty

/-- Identity, not equality of content. -/
def same (a b : Node) : Bool := decide (a.identity = b.identity)

/-- Parameters, writable members and index nodes may stand on the left of an assignment. -/
def isAssignable : Node → Bool
  | .param _ | .index .. => true
  | .member _ _ m => m.canWrite
  | _ => false

end Node

end ExprTree
