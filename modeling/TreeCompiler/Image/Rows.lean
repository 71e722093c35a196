import TreeCompiler.Image.Bytes

/-!
# Images

The rows of a container: what the program refers to, and what it defines. A token names a row by
its table and its place in the table, counted from one. `Image.bytes` is the container as it is
written to a file.
-/

namespace TreeCompiler

/-- A row of a table: the number of the table in the high byte, the row in the other three. -/
structure Token where
  raw : UInt32
deriving DecidableEq, Repr

namespace Token

/-- The token of a row; bits of the row beyond 24 are lost. -/
def ofRow (table : UInt8) (row : Nat) : Token :=
  ⟨table.toUInt32 <<< 24 ||| (UInt32.ofNat row &&& 0xFFFFFF)⟩

def table (t : Token) : UInt8 :=
  (t.raw >>> 24).toUInt8

def row (t : Token) : UInt32 :=
  t.raw &&& 0xFFFFFF

def typeRef (row : Nat) : Token := ofRow 0x01 row
def typeDef (row : Nat) : Token := ofRow 0x02 row
def field (row : Nat) : Token := ofRow 0x04 row
def methodDef (row : Nat) : Token := ofRow 0x06 row
def memberRef (row : Nat) : Token := ofRow 0x0A row
def userString (row : Nat) : Token := ofRow 0x70 row

end Token

structure Version where
  major : UInt16 := 0
  minor : UInt16 := 0
  build : UInt16 := 0
  revision : UInt16 := 0
deriving DecidableEq, Repr

structure AssemblyRef where
  name : String
  version : Version
deriving DecidableEq, Repr

structure TypeRefRow where
  /-- The library, counted from one. -/
  scope : UInt32
  namespaceName : String
  name : String
deriving DecidableEq, Repr

/-- A member of a type that is not defined in the image. -/
structure MemberRefRow where
  parent : Token
  name : String
  signature : Blob
deriving DecidableEq, Repr

structure AttributeRow where
  ctor : Token
  value : Blob
deriving DecidableEq, Repr

structure FieldRow where
  flags : UInt16
  name : String
  signature : Blob
  default : Option Blob := none
  attributes : List AttributeRow := []
deriving DecidableEq, Repr

structure ParamRow where
  name : String
  flags : UInt16
  default : Option Blob := none
deriving DecidableEq, Repr

structure MethodBody where
  maxStack : UInt16
  /-- Signatures of the local slots. -/
  locals : List Blob
  code : Blob
deriving DecidableEq, Repr

structure MethodRow where
  flags : UInt16
  implFlags : UInt16
  name : String
  signature : Blob
  params : List ParamRow := []
  attributes : List AttributeRow := []
  body : Option MethodBody := none
deriving DecidableEq, Repr

structure PropertyRow where
  name : String
  signature : Blob
  getter : Option Token := none
  setter : Option Token := none
  attributes : List AttributeRow := []
deriving DecidableEq, Repr

structure ClassLayout where
  packing : UInt16
  size : UInt32
deriving DecidableEq, Repr

structure TypeDefRow where
  flags : UInt32
  namespaceName : String
  name : String
  /-- The class that the type derives from. -/
  base : Option Token := none
  layout : Option ClassLayout := none
  interfaces : List Token := []
  attributes : List AttributeRow := []
  fields : List FieldRow := []
  methods : List MethodRow := []
  properties : List PropertyRow := []
deriving DecidableEq, Repr

structure Image where
  name : String := ""
  version : Version := {}
  assemblyRefs : List AssemblyRef := []
  attributes : List AttributeRow := []
  typeRefs : List TypeRefRow := []
  memberRefs : List MemberRefRow := []
  userStrings : List String := []
  typeDefs : List TypeDefRow := []
  entryPoint : Option Token := none
deriving DecidableEq, Repr

/-! ## Bytes of the rows -/

def Token.bytes (t : Token) : Blob :=
  .u32 t.raw

def Token.optionalBytes : Option Token → Blob
  | some t => t.bytes
  | none => .u32 0

def Version.bytes (v : Version) : Blob :=
  .u16 v.major ++ .u16 v.minor ++ .u16 v.build ++ .u16 v.revision

def AssemblyRef.bytes (r : AssemblyRef) : Blob :=
  .text r.name ++ r.version.bytes

def TypeRefRow.bytes (r : TypeRefRow) : Blob :=
  .u32 r.scope ++ .text r.namespaceName ++ .text r.name

def MemberRefRow.bytes (r : MemberRefRow) : Blob :=
  r.parent.bytes ++ .text r.name ++ .sized r.signature

def AttributeRow.bytes (r : AttributeRow) : Blob :=
  r.ctor.bytes ++ .sized r.value

def FieldRow.bytes (r : FieldRow) : Blob :=
  .u16 r.flags ++ .text r.name ++ .sized r.signature ++ .optional .sized r.default ++
    .list AttributeRow.bytes r.attributes

def ParamRow.bytes (r : ParamRow) : Blob :=
  .text r.name ++ .u16 r.flags ++ .optional .sized r.default

def MethodBody.bytes (b : MethodBody) : Blob :=
  .u16 b.maxStack ++ .list .sized b.locals ++ .sized b.code

def MethodRow.bytes (r : MethodRow) : Blob :=
  .u16 r.flags ++ .u16 r.implFlags ++ .text r.name ++ .sized r.signature ++
    .list ParamRow.bytes r.params ++ .list AttributeRow.bytes r.attributes ++
    .optional MethodBody.bytes r.body

def PropertyRow.bytes (r : PropertyRow) : Blob :=
  .text r.name ++ .sized r.signature ++ Token.optionalBytes r.getter ++
    Token.optionalBytes r.setter ++ .list AttributeRow.bytes r.attributes

def ClassLayout.bytes (l : ClassLayout) : Blob :=
  .u16 l.packing ++ .u32 l.size

def TypeDefRow.bytes (r : TypeDefRow) : Blob :=
  .u32 r.flags ++ .text r.namespaceName ++ .text r.name ++ Token.optionalBytes r.base ++
    .optional ClassLayout.bytes r.layout ++ .list Token.bytes r.interfaces ++
    .list AttributeRow.bytes r.attributes ++ .list FieldRow.bytes r.fields ++
    .list MethodRow.bytes r.methods ++ .list PropertyRow.bytes r.properties

namespace Image

/-- The four letters with which every container starts. -/
def magic : Blob :=
  Text.utf8 "BLMO"

def format : UInt16 := 1

def bytes (i : Image) : Blob :=
  magic ++ .u16 format ++ .text i.name ++ i.version.bytes ++
    .list AssemblyRef.bytes i.assemblyRefs ++ .list AttributeRow.bytes i.attributes ++
    .list TypeRefRow.bytes i.typeRefs ++ .list MemberRefRow.bytes i.memberRefs ++
    .list .text i.userStrings ++ .list TypeDefRow.bytes i.typeDefs ++
    Token.optionalBytes i.entryPoint

end Image

end TreeCompiler
