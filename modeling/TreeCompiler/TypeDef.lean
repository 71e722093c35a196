import TreeCompiler.FlowGraph

/-!
# Types and their members

A reference to a type that could not be resolved is absent; the entity that makes it exists all the
same.
-/

namespace TreeCompiler

inductive Visibility where
  | publicAccess
  | privateAccess
  | protectedAccess
  | internalAccess
deriving DecidableEq, Repr

namespace Visibility

def all : List Visibility :=
  [.publicAccess, .privateAccess, .protectedAccess, .internalAccess]

def text : Visibility → String
  | .publicAccess => "public"
  | .privateAccess => "private"
  | .protectedAccess => "protected"
  | .internalAccess => "internal"

end Visibility

inductive Origin where
  /-- The platform or the target provides it; it is referred to and never emitted. -/
  | external
  /-- The program declares it. -/
  | defined
deriving DecidableEq, Repr

/-- The kinds of declaration an attribute may stand at, one bit each. -/
structure AttributeTargets where
  bits : Nat
deriving DecidableEq, Repr

namespace AttributeTargets

def classes : AttributeTargets := ⟨0x01⟩
def structs : AttributeTargets := ⟨0x02⟩
def enums : AttributeTargets := ⟨0x04⟩
def interfaces : AttributeTargets := ⟨0x08⟩
def methods : AttributeTargets := ⟨0x10⟩
def properties : AttributeTargets := ⟨0x20⟩
def fields : AttributeTargets := ⟨0x40⟩
def everything : AttributeTargets := ⟨0x7f⟩

def union (s t : AttributeTargets) : AttributeTargets :=
  ⟨s.bits ||| t.bits⟩

def allows (s t : AttributeTargets) : Bool :=
  s.bits &&& t.bits != 0

end AttributeTargets

/-- An attribute at a declaration, with the arguments of its constructor. -/
structure Attribute where
  type : TypeId
  args : List Constant := []
deriving DecidableEq, Repr

structure Field where
  name : String
  type : Option TypeId
  visibility : Visibility := .publicAccess
  isStatic : Bool := false
  isMutable : Bool := false
  /-- The field is a constant such as a member of an enumeration. -/
  isLiteral : Bool := false
  value : Option Constant := none
  attributes : List Attribute := []
  span : Span := {}
deriving DecidableEq, Repr

structure Parameter where
  name : String
  type : Option TypeId
  default : Option Constant := none
deriving DecidableEq, Repr

structure Method where
  name : String
  /-- A method that returns nothing returns `System.Void`. -/
  returnType : Option TypeId
  params : List Parameter := []
  visibility : Visibility := .publicAccess
  isStatic : Bool := false
  isConstructor : Bool := false
  isDestructor : Bool := false
  isOverride : Bool := false
  isAbstract : Bool := false
  isForeign : Bool := false
  attributes : List Attribute := []
  body : Option FlowGraph := none
  span : Span := {}
deriving DecidableEq, Repr

instance : Inhabited Method := ⟨{ name := "", returnType := none }⟩

instance : Inhabited Field := ⟨{ name := "", type := none }⟩

namespace Method

def signature (m : Method) : List (Option TypeId) :=
  m.params.map (·.type)

def sameSignature (m n : Method) : Bool :=
  m.name == n.name && m.signature == n.signature

end Method

structure Property where
  name : String
  type : Option TypeId
  visibility : Visibility := .publicAccess
  getter : Option Method := none
  setter : Option Method := none
  attributes : List Attribute := []
  span : Span := {}
deriving DecidableEq, Repr

structure TypeDef where
  name : QualifiedName
  origin : Origin
  visibility : Visibility := .publicAccess
  /-- A class first, if there is one, and interfaces after it. -/
  bases : List TypeId := []
  isStatic : Bool := false
  isAbstract : Bool := false
  isSealed : Bool := false
  isInterface : Bool := false
  isValueType : Bool := false
  primitive : Option Primitive := none
  /-- Where the type may stand as an attribute. -/
  usage : Option AttributeTargets := none
  /-- Number of parameters of a generic definition. -/
  genericArity : Nat := 0
  /-- What the type is an instance of. -/
  genericDefinition : Option TypeId := none
  genericArgs : List TypeId := []
  fields : List Field := []
  methods : List Method := []
  properties : List Property := []
  attributes : List Attribute := []
  span : Span := {}
deriving DecidableEq, Repr

instance : Inhabited TypeDef := ⟨{ name := .global, origin := .external }⟩

namespace TypeDef

def baseClass? (d : TypeDef) : Option TypeId :=
  d.bases.head?

def methodsNamed (d : TypeDef) (name : String) : List (Nat × Method) :=
  (d.methods.zipIdx.map fun (m, i) => (i, m)).filter (·.2.name == name)

def fieldIndex? (d : TypeDef) (name : String) : Option Nat :=
  d.fields.findIdx? (·.name == name)

end TypeDef

end TreeCompiler
