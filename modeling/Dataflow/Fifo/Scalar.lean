import Dataflow.Fifo.Channel

/-!
# Integers as elements

The kinds of elements that are machine integers, signed or not, of one to eight bytes.
-/

namespace Dataflow

inductive Scalar where
  | u8
  | i8
  | u16
  | i16
  | u32
  | i32
  | u64
  | i64
  deriving DecidableEq, Repr

namespace Scalar

def all : List Scalar := [u8, i8, u16, i16, u32, i32, u64, i64]

def text : Scalar → String
  | u8 => "u8"
  | i8 => "i8"
  | u16 => "u16"
  | i16 => "i16"
  | u32 => "u32"
  | i32 => "i32"
  | u64 => "u64"
  | i64 => "i64"

def ofText? (s : String) : Option Scalar := all.find? (·.text == s)

def Carrier : Scalar → Type
  | u8 => UInt8
  | i8 => Int8
  | u16 => UInt16
  | i16 => Int16
  | u32 => UInt32
  | i32 => Int32
  | u64 => UInt64
  | i64 => Int64

def size : Scalar → UInt64
  | u8 | i8 => 1
  | u16 | i16 => 2
  | u32 | i32 => 4
  | u64 | i64 => 8

/-- The element with the value `n`, modulo the number of elements of the kind. -/
def ofInt : (k : Scalar) → Int → Carrier k
  | u8, n => (UInt8.ofInt n : UInt8)
  | i8, n => (Int8.ofInt n : Int8)
  | u16, n => (UInt16.ofInt n : UInt16)
  | i16, n => (Int16.ofInt n : Int16)
  | u32, n => (UInt32.ofInt n : UInt32)
  | i32, n => (Int32.ofInt n : Int32)
  | u64, n => (UInt64.ofInt n : UInt64)
  | i64, n => (Int64.ofInt n : Int64)

def toInt : (k : Scalar) → Carrier k → Int
  | u8, (v : UInt8) => v.toNat
  | i8, (v : Int8) => v.toInt
  | u16, (v : UInt16) => v.toNat
  | i16, (v : Int16) => v.toInt
  | u32, (v : UInt32) => v.toNat
  | i32, (v : Int32) => v.toInt
  | u64, (v : UInt64) => v.toNat
  | i64, (v : Int64) => v.toInt

instance : ElementKind Scalar where
  Carrier := Carrier
  size := size
  blank k := ofInt k 0
  decEq := inferInstance

end Scalar

end Dataflow
