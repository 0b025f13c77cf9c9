/-!
# NeuralQuery.ElementType

The element types a tensor can be declared with, their names and their families.
-/

namespace NeuralQuery

inductive ElementType where
  | real
  | float16
  | float32
  | float64
  | bfloat16
  | float8e4m3fn
  | float8e5m2
  | float8e4m3fnuz
  | float8e5m2fnuz
  | float4e2m1
  | int8
  | int16
  | int32
  | int64
  | uint8
  | uint16
  | uint32
  | uint64
  | complex64
  | complex128
  | bool
  | string
  deriving DecidableEq, Repr

namespace ElementType

def all : List ElementType :=
  [real, float16, float32, float64, bfloat16, float8e4m3fn, float8e5m2, float8e4m3fnuz,
   float8e5m2fnuz, float4e2m1, int8, int16, int32, int64, uint8, uint16, uint32, uint64,
   complex64, complex128, bool, string]

def name : ElementType → String
  | real => "Real"
  | float16 => "float16"
  | float32 => "float32"
  | float64 => "float64"
  | bfloat16 => "bfloat16"
  | float8e4m3fn => "float8e4m3fn"
  | float8e5m2 => "float8e5m2"
  | float8e4m3fnuz => "float8e4m3fnuz"
  | float8e5m2fnuz => "float8e5m2fnuz"
  | float4e2m1 => "float4e2m1"
  | int8 => "int8"
  | int16 => "int16"
  | int32 => "int32"
  | int64 => "int64"
  | uint8 => "uint8"
  | uint16 => "uint16"
  | uint32 => "uint32"
  | uint64 => "uint64"
  | complex64 => "complex64"
  | complex128 => "complex128"
  | bool => "bool"
  | string => "string"

def ofName? (text : String) : Option ElementType :=
  all.find? fun t => t.name == text

/-- The floating-point types, with the abstract `Real` among them. -/
def isFloat : ElementType → Bool
  | real | float16 | float32 | float64 | bfloat16 | float8e4m3fn | float8e5m2
  | float8e4m3fnuz | float8e5m2fnuz | float4e2m1 => true
  | _ => false

def isSigned : ElementType → Bool
  | int8 | int16 | int32 | int64 => true
  | _ => false

def isUnsigned : ElementType → Bool
  | uint8 | uint16 | uint32 | uint64 => true
  | _ => false

def isInteger (t : ElementType) : Bool :=
  t.isSigned || t.isUnsigned

def isComplex : ElementType → Bool
  | complex64 | complex128 => true
  | _ => false

def isNumeric (t : ElementType) : Bool :=
  t.isFloat || t.isInteger || t.isComplex

theorem ofName?_name (t : ElementType) : ofName? t.name = some t := by
  cases t <;> decide

end ElementType
end NeuralQuery
