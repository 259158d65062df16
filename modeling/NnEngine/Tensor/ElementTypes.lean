import NnEngine.Tensor.Ops

/-!
# Values of the element types

`TensorData` of `src/tensor/data.rs` stores integers in 64 bits and floats as `f64`, whatever the element type.
-/

namespace NnEngine

/-- Each stored value is one of the element type. -/
def TensorData.OfType : TensorData → Prop
  | .bool v => ∀ x ∈ v, x = 0 ∨ x = 1
  | .sInt .I8 v => ∀ x ∈ v, ∃ y : Int8, x = y.toInt64
  | .sInt .I32 v => ∀ x ∈ v, ∃ y : Int32, x = y.toInt64
  | .sInt .I64 _ => True
  | .uInt .U8 v => ∀ x ∈ v, ∃ y : UInt8, x = y.toUInt64
  | .uInt .U64 _ => True
  | .float .F32 v => ∀ x ∈ v, ∃ y : F32, x = y.asF64
  | .float .F64 _ => True
  | .float .BF16 v => ∀ x ∈ v, ∃ bits : UInt16, x = bf16AsF64 bits

/-- A value of the element type survives the native type, except for `u8`, which is taken for a flag. -/
theorem Native.convert_of_ofType {data : TensorData} {N : Native} (hN : Native.of data.elemType = some N)
    (hdata : data.OfType) (hne : data.elemType ≠ .uInt .U8) : ∀ x ∈ data.toScalars, N.convert x = x := by
  intro x hx
  match data with
  | .bool v =>
      obtain ⟨b, hb, rfl⟩ := List.mem_map.mp hx
      cases hN
      obtain rfl | rfl := hdata b hb <;> rfl
  | .sInt .I8 v =>
      obtain ⟨b, hb, rfl⟩ := List.mem_map.mp hx
      cases hN
      obtain ⟨y, rfl⟩ := hdata b hb
      simp [Native.convert, Native.cast, Native.i8]
  | .sInt .I32 v =>
      obtain ⟨b, hb, rfl⟩ := List.mem_map.mp hx
      cases hN
      obtain ⟨y, rfl⟩ := hdata b hb
      simp [Native.convert, Native.cast, Native.i32]
  | .sInt .I64 v =>
      obtain ⟨b, -, rfl⟩ := List.mem_map.mp hx
      cases hN
      rfl
  | .uInt .U8 v => exact absurd rfl hne
  | .uInt .U64 v =>
      obtain ⟨b, -, rfl⟩ := List.mem_map.mp hx
      cases hN
      rfl
  | .float .F32 v =>
      obtain ⟨b, hb, rfl⟩ := List.mem_map.mp hx
      cases hN
      obtain ⟨y, rfl⟩ := hdata b hb
      simp [Native.convert, Native.cast, Native.f32, F64.asF32_asF64]
  | .float .F64 v =>
      obtain ⟨b, -, rfl⟩ := List.mem_map.mp hx
      cases hN
      rfl
  | .float .BF16 v => cases hN

end NnEngine
