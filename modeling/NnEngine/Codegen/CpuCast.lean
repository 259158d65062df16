import NnEngine.FloatOfInt
import NnEngine.Tensor.Data

/-!
# Casts and integer arithmetic on the CPU and in constant folding

`SingleOpcode::Cast` and the integer arithmetic of `build_single_op` against `fold_constant` of
`const_folding.rs`, for one element.  An element goes from memory to memory: the compiled code loads and stores
it, constant folding has it in an `i64`, a `u64` or an `f64`, and a session writes it out again with
`StrictTensor::from`.  All NaNs are one.
-/

namespace NnEngine
namespace CpuCast

open FloatFormat

/-- An element in memory. -/
inductive Element
  | bool (b : Bool)
  | sInt (t : SIntType) (x : BitVec t.bitWidth)
  | uInt (t : UIntType) (x : BitVec t.bitWidth)
  | bf16 (bits : UInt16)
  | f32 (x : F32)
  | f64 (x : F64)

def Element.type : Element → DataType
  | bool _ => .bool
  | sInt t _ => .sInt t
  | uInt t _ => .uInt t
  | bf16 _ => .float .BF16
  | f32 _ => .float .F32
  | f64 _ => .float .F64

/-! ### Instructions -/

/-- A value in a register. -/
inductive Value
  | int (w : Nat) (x : BitVec w)
  | f32 (x : F32)
  | f64 (x : F64)

namespace Value

/-- `build_int_cast`: the sign is extended. -/
def intCast (w' : Nat) : Value → Option Value
  | int _ x => some (int w' (x.signExtend w'))
  | _ => none

/-- An integer in the type that is computed with. -/
def ofInt (t : FloatType) (n : Int) : Value :=
  match t with
  | .F64 => f64 (.ofInt n)
  | _ => f32 (.ofInt n)

/-- `build_signed_int_to_float`. -/
def signedIntToFloat (t : FloatType) : Value → Option Value
  | int _ x => some (ofInt t x.toInt)
  | _ => none

/-- `build_unsigned_int_to_float`. -/
def unsignedIntToFloat (t : FloatType) : Value → Option Value
  | int _ x => some (ofInt t x.toNat)
  | _ => none

/-- A float, if it is one. -/
def unpack : Value → Option Float.Model.UnpackedFloat
  | int _ _ => none
  | f32 x => some x.unpack
  | f64 x => some x.unpack

/-- `build_float_to_signed_int`, which has no value for a number that does not fit. -/
def floatToSignedInt (w : Nat) (src : Value) : Option Value := do
  let n ← integerPart (← src.unpack)
  if -2 ^ (w - 1) ≤ n ∧ n < 2 ^ (w - 1) then some (int w (.ofInt w n)) else none

/-- `build_float_to_unsigned_int`. -/
def floatToUnsignedInt (w : Nat) (src : Value) : Option Value := do
  let n ← integerPart (← src.unpack)
  if 0 ≤ n ∧ n < 2 ^ w then some (int w (.ofInt w n)) else none

/-- `build_float_cast` and `build_float_trunc`. -/
def floatCast (t : FloatType) : Value → Option Value
  | int _ _ => none
  | f32 x => some (match t with
    | .F64 => f64 x.asF64
    | _ => f32 x)
  | f64 x => some (match t with
    | .F64 => f64 x
    | _ => f32 x.asF32)

/-- `NE` with zero. -/
def intIsNonzero : Value → Option Bool
  | int w x => some (x ≠ 0#w)
  | _ => none

/-- `ONE` with zero, which is false for a NaN. -/
def isNonzero : Float.Model.UnpackedFloat → Bool
  | .notANumber => false
  | .zero _ => false
  | _ => true

def floatIsNonzero (src : Value) : Option Bool := src.unpack.map isNonzero

/-- `build_int_z_extend` of a comparison. -/
def flag (b : Bool) : Value := int 8 (if b then 1 else 0)

end Value

/-! ### The compiled cast -/

/-- `f32_to_bf16_bits`. -/
def f32ToBf16Bits (y : F32) : UInt16 :=
  let bits := y.toBits
  let lsb := (bits >>> 16) &&& 1
  ((bits + (lsb + 0x7FFF)) >>> 16).toUInt16

/-- `build_load`. -/
def load : Element → Value
  | .bool b => .flag b
  | .sInt t x => .int t.bitWidth x
  | .uInt t x => .int t.bitWidth x
  | .bf16 bits => .f32 (.ofBits (bits.toUInt32 <<< 16))
  | .f32 x => .f32 x
  | .f64 x => .f64 x

/-- `build_store`. -/
def store (ty : DataType) (val : Value) : Option Element :=
  match ty, val with
  | .bool, .int w x => if w = 8 then some (.bool (x ≠ 0#w)) else none
  | .sInt t, .int w x => if w = t.bitWidth then some (.sInt t (x.setWidth _)) else none
  | .uInt t, .int w x => if w = t.bitWidth then some (.uInt t (x.setWidth _)) else none
  | .float .BF16, .f32 x => some (.bf16 (f32ToBf16Bits x))
  | .float .F32, .f32 x => some (.f32 x)
  | .float .F64, .f64 x => some (.f64 x)
  | _, _ => none

/-- `SingleOpcode::Cast(from, to)`. -/
def buildCast (source target : DataType) (src : Value) : Option Value :=
  match source, target with
  | .sInt sfrom, .sInt sto => if sfrom = sto then some src else src.intCast sto.bitWidth
  | .uInt ufrom, .uInt uto => if ufrom = uto then some src else src.intCast uto.bitWidth
  | .float ffrom, .float fto => if ffrom = fto then some src else src.floatCast fto
  | .bool, .sInt sto => src.intCast sto.bitWidth
  | .bool, .uInt uto => src.intCast uto.bitWidth
  | .bool, .float fto => src.unsignedIntToFloat fto
  | .bool, .bool => some src
  | .sInt _, .bool => src.intIsNonzero.map .flag
  | .uInt _, .bool => src.intIsNonzero.map .flag
  | .float _, .bool => src.floatIsNonzero.map .flag
  | .sInt _, .uInt uto => src.intCast uto.bitWidth
  | .uInt _, .sInt sto => src.intCast sto.bitWidth
  | .sInt _, .float fto => src.signedIntToFloat fto
  | .uInt _, .float fto => src.unsignedIntToFloat fto
  | .float _, .sInt sto => src.floatToSignedInt sto.bitWidth
  | .float _, .uInt uto => src.floatToUnsignedInt uto.bitWidth

/-- What the compiled cast leaves in memory. -/
def castElement (x : Element) (target : DataType) : Option Element :=
  (buildCast x.type target (load x)).bind (store target)

/-! ### The folded cast -/

/-- An element in a `TensorData`. -/
def host : Element → ScalarData
  | .bool b => .bool (if b then 1 else 0)
  | .sInt t x => .sInt t ⟨⟨x.signExtend 64⟩⟩
  | .uInt t x => .uInt t ⟨x.setWidth 64⟩
  | .bf16 bits => .float .BF16 (bf16AsF64 bits)
  | .f32 x => .float .F32 x.asF64
  | .f64 x => .float .F64 x

/-- `as i64`. -/
def asI64 : ScalarData → Int64
  | .bool b => b.toUInt64.toInt64
  | .sInt _ v => v
  | .uInt _ v => v.toInt64
  | .float _ v => v.toInt64

/-- `as u64`. -/
def asU64 : ScalarData → UInt64
  | .bool b => b.toUInt64
  | .sInt _ v => v.toUInt64
  | .uInt _ v => v
  | .float _ v => v.toUInt64

/-- `cast!`. -/
def castScalar (data : ScalarData) : DataType → ScalarData
  | .bool => .bool (if asI64 data ≠ 0 then 1 else 0)
  | .sInt t => .sInt t (asI64 data)
  | .uInt t => .uInt t (asU64 data)
  | .float t => .float t data.asF64

/-- `fold_constant` of a `Cast`, which takes a flag as an `i64`. -/
def foldCast (data : ScalarData) (target : DataType) : ScalarData :=
  match data with
  | .bool b => castScalar (.sInt .I64 (asI64 (.bool b))) target
  | data => castScalar data target

/-- `StrictTensor::from`. -/
def strict : ScalarData → Element
  | .bool b => .bool (b ≠ 0)
  | .sInt t v => .sInt t (v.toBitVec.setWidth _)
  | .uInt t v => .uInt t (v.toBitVec.setWidth _)
  | .float .F32 v => .f32 v.asF32
  | .float .F64 v => .f64 v
  | .float .BF16 v => .bf16 (v.asF32.toBits >>> 16).toUInt16

/-- What a session has of the folded cast. -/
def foldedElement (x : Element) (target : DataType) : Element := strict (foldCast (host x) target)

/-! ### Integer arithmetic -/

inductive ArithOp
  | Add
  | Div
  | Mul
  | Sub
  deriving DecidableEq, Repr

/-- The exact result, with a quotient that is rounded to zero. -/
def ArithOp.exact (op : ArithOp) (a b : Int) : Option Int :=
  match op with
  | Add => some (a + b)
  | Div => if b = 0 then none else some (a.tdiv b)
  | Mul => some (a * b)
  | Sub => some (a - b)

/-- The integer arithmetic of `build_single_op`.  A division by zero has no value, nor has one that overflows. -/
def buildArith (op : ArithOp) : Value → Value → Option Value
  | .int w x, .int w' y =>
    if w' = w then
      let y := y.setWidth w
      match op with
      | .Add => some (.int w (x + y))
      | .Div => if y = 0#w ∨ x = .intMin w ∧ y = -1#w then none else some (.int w (x.sdiv y))
      | .Mul => some (.int w (x * y))
      | .Sub => some (.int w (x - y))
    else none
  | _, _ => none

/-- What the compiled arithmetic leaves in memory. -/
def arithElement (op : ArithOp) (x y : Element) : Option Element :=
  (buildArith op (load x) (load y)).bind (store x.type)

/-- `calc!` on integers, which panics when the result does not fit. -/
def foldArith (op : ArithOp) : ScalarData → ScalarData → Option ScalarData
  | .sInt t a, .sInt _ b => (op.exact a.toInt b.toInt).bind fun r =>
    if -2 ^ 63 ≤ r ∧ r < 2 ^ 63 then some (.sInt t (.ofInt r)) else none
  | .uInt t a, .uInt _ b => (op.exact a.toNat b.toNat).bind fun r =>
    if 0 ≤ r ∧ r < 2 ^ 64 then some (.uInt t (.ofNat r.toNat)) else none
  | _, _ => none

/-- What a session has of the folded arithmetic. -/
def foldedArith (op : ArithOp) (x y : Element) : Option Element := (foldArith op (host x) (host y)).map strict

end CpuCast
end NnEngine
