import TreeCompiler.Constant
import TreeCompiler.Image.Bytes

/-!
# Element codes and constants

Signatures name a primitive type by one byte. A constant is stored as the byte of its type and its
value in the width of that type.
-/

namespace TreeCompiler

/-! ## Codes of types -/

namespace Element

def void : UInt8 := 0x01
def bool : UInt8 := 0x02
def char : UInt8 := 0x03
def f32 : UInt8 := 0x0C
def f64 : UInt8 := 0x0D
def string : UInt8 := 0x0E
def valueType : UInt8 := 0x11
def classType : UInt8 := 0x12
def object : UInt8 := 0x1C

def int : IntKind → UInt8
  | .i8 => 0x04
  | .u8 => 0x05
  | .i16 => 0x06
  | .u16 => 0x07
  | .i32 => 0x08
  | .u32 => 0x09
  | .i64 => 0x0A
  | .u64 => 0x0B

end Element

/-- Code of a primitive type. Numbers of half precision have none: they count as a value type. -/
def Primitive.element? : Primitive → Option UInt8
  | .void => some Element.void
  | .bool => some Element.bool
  | .char => some Element.char
  | .int k => some (Element.int k)
  | .f16 => none
  | .f32 => some Element.f32
  | .f64 => some Element.f64
  | .string => some Element.string
  | .object => some Element.object

/-! ## Constants -/

namespace Constant

/-- Code of the type as which a constant is stored. -/
def element : Constant → UInt8
  | .int k _ => Element.int k
  | .float32 _ => Element.f32
  | .float64 _ => Element.f64
  | .string _ => Element.string
  | .char _ => Element.char
  | .bool _ => Element.bool
  | .null => Element.classType

/-- The value of a constant without its type. Of a character only the low 16 bits are kept. -/
def payload : Constant → Blob
  | .int k v => .ofInt k.bytes v
  | .float32 x => .u32 x.bits
  | .float64 x => .ofNat 8 x.bits.toNat
  | .string s => .text s
  | .char c => .ofNat 2 c.toNat
  | .bool b => [if b then 1 else 0]
  | .null => .u32 0

def blob (c : Constant) : Blob :=
  c.element :: c.payload

end Constant

end TreeCompiler
