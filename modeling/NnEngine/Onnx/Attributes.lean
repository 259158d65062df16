import NnEngine.Onnx.LoadOp
import NnEngine.Onnx.TensorRoundTrip

/-!
# Attributes through a file

`Loads`: what a list of saved attributes is for the loader.  It is put together from the attributes one
by one, so that a table of `operator_attrs` is read by its shape.
-/

namespace NnEngine
namespace Onnx

namespace Attributes

/-- One attribute, which may be absent. -/
def only (name : String) (value : Option Attribute) : Attributes :=
  fun k => if k = name then value else none

/-- The second attributes where they are there, else the first. -/
def append (first second : Attributes) : Attributes := fun k => (second k).or (first k)

@[simp]
theorem append_apply (first second : Attributes) (k : String) :
    first.append second k = (second k).or (first k) := rfl

@[simp]
theorem only_apply (name : String) (value : Option Attribute) (k : String) :
    only name value k = if k = name then value else none := rfl

theorem only_self (name : String) (value : Option Attribute) : only name value name = value := if_pos rfl

theorem only_of_ne {name k : String} (value : Option Attribute) (h : k ≠ name) :
    only name value k = none := if_neg h

section

variable {α : Type} {attributes : Attributes} {name : String} {read : Attribute → LoadResult α}
  {x : Attribute} {y dflt : α}

theorem get_none (h : attributes name = none) : attributes.get name read = .ok none := by
  rw [get, h]

theorem get_some (h : attributes name = some x) (hread : read x = .ok y) :
    attributes.get name read = .ok (some y) := by
  rw [get, h]
  exact congrArg (Except.map some) hread

theorem getOr_none (h : attributes name = none) : attributes.getOr name read dflt = .ok dflt := by
  rw [getOr, get_none h]
  rfl

theorem getOr_some (h : attributes name = some x) (hread : read x = .ok y) :
    attributes.getOr name read dflt = .ok y := by
  rw [getOr, get_some h hread]
  rfl

/-- An attribute that is left out where it has the default. -/
theorem getOr_ite {p : Prop} [Decidable p] (h : attributes name = if p then some x else none)
    (hread : read x = .ok y) (hdflt : ¬ p → y = dflt) : attributes.getOr name read dflt = .ok y := by
  by_cases hp : p
  · exact getOr_some (h.trans (if_pos hp)) hread
  · rw [getOr_none (h.trans (if_neg hp)), hdflt hp]

theorem required_some (h : attributes name = some x) : attributes.required name = .ok x := by
  rw [required, h]

end

end Attributes

variable {files : Files} {baseDir : Option String}

/-- Loading the list adds the attributes. -/
def Loads (files : Files) (baseDir : Option String) (l : List AttributeProto) (m : Attributes) : Prop :=
  ∀ res, loadAttributesFrom files baseDir res l = .ok (res.append m)

theorem Loads.loadAttributes {l : List AttributeProto} {m : Attributes} (h : Loads files baseDir l m) :
    loadAttributes files baseDir l = .ok m := by
  rw [Onnx.loadAttributes, h]
  congr 1
  funext k
  exact Option.or_none

theorem loads_nil : Loads files baseDir [] (fun _ => none) := fun _ => rfl

theorem Loads.append {l l' : List AttributeProto} {m m' : Attributes} (h : Loads files baseDir l m)
    (h' : Loads files baseDir l' m') : Loads files baseDir (l ++ l') (m.append m') := by
  intro res
  have hfold : loadAttributesFrom files baseDir res (l ++ l') =
      (loadAttributesFrom files baseDir res l).bind fun res => loadAttributesFrom files baseDir res l' :=
    List.foldlM_append
  rw [hfold, h, Except.bind, h']
  congr 1
  funext k
  exact Option.or_assoc.symm

/-- One attribute. -/
theorem loads_one {attr : AttributeProto} {value : Attribute}
    (h : loadAttribute files baseDir attr = .ok value) :
    Loads files baseDir [attr] (.only attr.name (some value)) := by
  intro res
  have hfold : loadAttributesFrom files baseDir res [attr] =
      ((loadAttribute files baseDir attr).map fun value =>
        Function.update res attr.name (some value)) := by
    rw [loadAttributesFrom, List.foldlM_cons]
    cases loadAttribute files baseDir attr <;> rfl
  rw [hfold, h, Except.map]
  congr 1
  funext k
  by_cases hk : k = attr.name
  · rw [hk, Function.update_self, Attributes.append, Attributes.only_self]
    rfl
  · rw [Function.update_of_ne hk, Attributes.append, Attributes.only_of_ne _ hk]
    rfl

theorem loads_int (name : String) (x : Int64) :
    Loads files baseDir [attrInt name x] (.only name (some (.int x))) := loads_one rfl

theorem loads_ints (name : String) (x : List Int64) :
    Loads files baseDir [attrInts name x] (.only name (some (.ints x))) := loads_one rfl

theorem loads_float (name : String) (x : F32) :
    Loads files baseDir [attrFloat name x] (.only name (some (.float x))) := loads_one rfl

theorem loadUtf8_toUTF8 (x : String) : loadUtf8 x.toUTF8 = .ok x := by
  have h : String.fromUTF8? x.toByteArray = some x := dif_pos x.isValidUTF8
  rw [loadUtf8, String.toUTF8_eq_toByteArray, h]

theorem loads_string (name x : String) :
    Loads files baseDir [attrString name x] (.only name (some (.str x))) := by
  refine loads_one ?_
  change (loadUtf8 x.toUTF8).map Attribute.str = _
  rw [loadUtf8_toUTF8]
  rfl

theorem loads_tensor {name : String} {proto : TensorProto} {tensor : Tensor}
    (h : loadTensor files proto baseDir = .ok tensor) :
    Loads files baseDir [attrTensor name proto] (.only name (some (.tensor tensor))) := by
  refine loads_one ?_
  change (loadTensor files proto baseDir).map Attribute.tensor = _
  rw [h]
  rfl

/-- An attribute that is saved under a condition. -/
theorem Loads.ite {p : Prop} [Decidable p] {l : List AttributeProto} {name : String} {value : Attribute}
    (h : Loads files baseDir l (.only name (some value))) :
    Loads files baseDir (if p then l else []) (.only name (if p then some value else none)) := by
  split
  · exact h
  · intro res
    rw [loads_nil res]
    congr 1
    funext k
    simp [Attributes.append, Attributes.only]

theorem loads_optionalInts (name : String) {α : Type} (f : α → Int64) (v : Option (List α)) :
    Loads files baseDir (optionalInts name f v) (.only name (v.map fun v => .ints (v.map f))) := by
  cases v with
  | none =>
      intro res
      rw [optionalInts, loads_nil res]
      congr 1
      funext k
      simp [Attributes.append, Attributes.only]
  | some v => exact loads_ints name (v.map f)

end Onnx
end NnEngine
