import GeminiCpp.Error

/-! JSON values as `nlohmann::json` holds them, with the accessors the library uses. An
accessor applied to a value of the wrong type throws. -/
namespace GeminiCpp

/-- A JSON value. Numbers keep the library's three kinds; a double is kept as its bits. -/
inductive Json
  | null
  | bool (b : Bool)
  | int (v : Int64)
  | uint (v : UInt64)
  | float (bits : UInt64)
  | str (s : Bytes)
  | arr (elems : List Json)
  | obj (fields : List (Bytes × Json))
deriving Inhabited, Repr

namespace Json

def typeName : Json → Bytes
  | .null => ascii "null"
  | .bool _ => ascii "boolean"
  | .int _ | .uint _ | .float _ => ascii "number"
  | .str _ => ascii "string"
  | .arr _ => ascii "array"
  | .obj _ => ascii "object"

def isObject : Json → Bool
  | .obj _ => true
  | _ => false

def isString : Json → Bool
  | .str _ => true
  | _ => false

def isNull : Json → Bool
  | .null => true
  | _ => false

/-- Signed and unsigned integers, but not doubles. -/
def isNumberInteger : Json → Bool
  | .int _ | .uint _ => true
  | _ => false

/-- The value under `key`, in a map given by its entries. -/
def lookup (key : Bytes) : List (Bytes × Json) → Option Json
  | [] => none
  | (k, v) :: fields => if k = key then some v else lookup key fields

/-- `find`; on a value that is not an object it finds nothing. -/
def find (j : Json) (key : Bytes) : Option Json :=
  match j with
  | .obj fields => lookup key fields
  | _ => none

/-- Insertion or assignment in a map kept in key order. -/
def insert (key : Bytes) (v : Json) : List (Bytes × Json) → List (Bytes × Json)
  | [] => [(key, v)]
  | (k, w) :: fields =>
    if k = key then (key, v) :: fields
    else if key < k then (key, v) :: (k, w) :: fields
    else (k, w) :: insert key v fields

/-- `j[key] = v` on an object, or on a null that becomes one. -/
def set (j : Json) (key : Bytes) (v : Json) : Json :=
  match j with
  | .obj fields => .obj (insert key v fields)
  | _ => .obj [(key, v)]

/-- An object given by its entries. -/
def object (fields : List (Bytes × Json)) : Json :=
  fields.foldl (fun j kv => j.set kv.1 kv.2) (.obj [])

/-- `type_error` 302: a conversion to a type the value does not hold. -/
def typeError302 (expected : String) (j : Json) : Exn :=
  .std (ascii "[json.exception.type_error.302] type must be " ++ ascii expected ++
    ascii ", but is " ++ j.typeName)

def getString : Json → MayThrow Bytes
  | .str s => .ok s
  | j => .error (j.typeError302 "string")

/-- `get<std::int64_t>`; an unsigned value is converted modulo 2^64. -/
def getInt64 : Json → MayThrow Int64
  | .int v => .ok v
  | .uint v => .ok v.toInt64
  | j => .error (j.typeError302 "number")

def getBool : Json → MayThrow Bool
  | .bool b => .ok b
  | j => .error (j.typeError302 "boolean")

/-- `get<int>`; an integer is converted modulo 2^32. -/
def getInt32 : Json → MayThrow Int32
  | .int v => .ok v.toInt32
  | .uint v => .ok v.toInt64.toInt32
  | j => .error (j.typeError302 "number")

/-- `value(key, fallback)` of an object: the fallback only when the key is absent. -/
def valueBool (j : Json) (key : Bytes) (fallback : Bool) : MayThrow Bool :=
  match j.find key with
  | some v => v.getBool
  | none => .ok fallback

def valueString (j : Json) (key fallback : Bytes) : MayThrow Bytes :=
  match j.find key with
  | some v => v.getString
  | none => .ok fallback

mutual

/-- Every string in the value, keys included, is valid UTF-8. -/
def wellEncoded : Json → Bool
  | .str s => Utf8.valid s
  | .arr elems => wellEncodedElems elems
  | .obj fields => wellEncodedFields fields
  | _ => true

def wellEncodedElems : List Json → Bool
  | [] => true
  | j :: elems => wellEncoded j && wellEncodedElems elems

def wellEncodedFields : List (Bytes × Json) → Bool
  | [] => true
  | (k, v) :: fields => Utf8.valid k && wellEncoded v && wellEncodedFields fields

end

theorem lookup_cons (key k : Bytes) (v : Json) (fields : List (Bytes × Json)) :
    lookup key ((k, v) :: fields) = if k = key then some v else lookup key fields := rfl

theorem find_obj (fields : List (Bytes × Json)) (key : Bytes) :
    (obj fields).find key = lookup key fields := rfl

theorem insert_nil (key : Bytes) (v : Json) : insert key v [] = [(key, v)] := rfl

theorem insert_cons (key k : Bytes) (v w : Json) (fields : List (Bytes × Json)) :
    insert key v ((k, w) :: fields) =
      if k = key then (key, v) :: fields
      else if key < k then (key, v) :: (k, w) :: fields
      else (k, w) :: insert key v fields := rfl

theorem set_obj (fields : List (Bytes × Json)) (key : Bytes) (v : Json) :
    (obj fields).set key v = obj (insert key v fields) := rfl

theorem wellEncodedElems_cons (j : Json) (elems : List Json) :
    wellEncodedElems (j :: elems) = (j.wellEncoded && wellEncodedElems elems) := by
  rw [wellEncodedElems]

theorem wellEncodedFields_cons (kv : Bytes × Json) (fields : List (Bytes × Json)) :
    wellEncodedFields (kv :: fields) =
      (Utf8.valid kv.1 && kv.2.wellEncoded && wellEncodedFields fields) := by
  rw [wellEncodedFields]

@[simp] theorem find_set_self (j : Json) (key : Bytes) (v : Json) :
    (j.set key v).find key = some v := by
  cases j with
  | obj fields =>
    rw [set_obj, find_obj]
    induction fields with
    | nil => simp [insert_nil, lookup_cons]
    | cons kw fields ih =>
      obtain ⟨k, w⟩ := kw
      simp only [insert_cons]
      split_ifs with h1 h2 <;> simp_all [lookup_cons]
  | _ => exact if_pos rfl

/-- Also for a value that is not an object, where neither key is found. -/
theorem find_set_ne {key key' : Bytes} (h : key ≠ key') (j v : Json) :
    (j.set key v).find key' = j.find key' := by
  cases j with
  | obj fields =>
    rw [set_obj, find_obj, find_obj]
    induction fields with
    | nil => simp [insert_nil, lookup_cons, h]
    | cons kw fields ih =>
      obtain ⟨k, w⟩ := kw
      simp only [insert_cons]
      split_ifs with h1 h2
      · subst h1
        simp [lookup_cons, h]
      · simp [lookup_cons, h]
      · simp only [lookup_cons, ih]
  | _ => exact if_neg h

theorem wellEncoded_arr {elems : List Json} :
    (arr elems).wellEncoded = true ↔ ∀ j ∈ elems, j.wellEncoded = true := by
  rw [wellEncoded]
  induction elems with
  | nil => simp [wellEncodedElems]
  | cons j elems ih => simp [wellEncodedElems_cons, ih]

theorem wellEncoded_obj {fields : List (Bytes × Json)} :
    (obj fields).wellEncoded = true ↔
      ∀ kv ∈ fields, Utf8.valid kv.1 = true ∧ kv.2.wellEncoded = true := by
  rw [wellEncoded]
  induction fields with
  | nil => simp [wellEncodedFields]
  | cons kv fields ih => simp [wellEncodedFields_cons, ih, and_assoc]

theorem mem_insert {key : Bytes} {v : Json} {fields : List (Bytes × Json)} {kv : Bytes × Json}
    (h : kv ∈ insert key v fields) : kv = (key, v) ∨ kv ∈ fields := by
  induction fields with
  | nil => exact Or.inl (List.mem_singleton.mp h)
  | cons kw fields ih =>
    obtain ⟨k, w⟩ := kw
    simp only [insert_cons] at h
    split_ifs at h
    · exact (List.mem_cons.mp h).imp_right (List.mem_cons_of_mem _)
    · exact List.mem_cons.mp h
    · rcases List.mem_cons.mp h with rfl | h
      · exact Or.inr (List.mem_cons_self ..)
      · exact (ih h).imp_right (List.mem_cons_of_mem _)

theorem wellEncoded_set {j v : Json} {key : Bytes} (hj : j.wellEncoded = true)
    (hkey : Utf8.valid key = true) (hv : v.wellEncoded = true) :
    (j.set key v).wellEncoded = true := by
  cases j with
  | obj fields =>
    rw [wellEncoded_obj] at hj
    refine wellEncoded_obj.mpr fun kv hkv => ?_
    rcases mem_insert hkv with rfl | hkv
    · exact ⟨hkey, hv⟩
    · exact hj kv hkv
  | _ =>
    refine wellEncoded_obj.mpr fun kv hkv => ?_
    rw [List.mem_singleton.mp hkv]
    exact ⟨hkey, hv⟩

theorem wellEncoded_find {j v : Json} {key : Bytes} (hj : j.wellEncoded = true)
    (h : j.find key = some v) : v.wellEncoded = true := by
  cases j with
  | obj fields =>
    rw [wellEncoded_obj] at hj
    simp only [find] at h
    induction fields with
    | nil => cases h
    | cons kw fields ih =>
      obtain ⟨k, w⟩ := kw
      simp only [lookup_cons] at h
      split_ifs at h
      · obtain rfl := Option.some.inj h
        exact (hj _ (List.mem_cons_self ..)).2
      · exact ih (fun kv hkv => hj kv (List.mem_cons_of_mem _ hkv)) h
  | _ => cases h

theorem wellEncoded_object {fields : List (Bytes × Json)}
    (h : ∀ kv ∈ fields, Utf8.valid kv.1 = true ∧ kv.2.wellEncoded = true) :
    (object fields).wellEncoded = true := by
  have hfold : ∀ j : Json, j.wellEncoded = true →
      (fields.foldl (fun j kv => j.set kv.1 kv.2) j).wellEncoded = true := by
    induction fields with
    | nil => exact fun j hj => hj
    | cons kv fields ih =>
      intro j hj
      obtain ⟨hkey, hv⟩ := h kv (List.mem_cons_self ..)
      exact ih (fun kv hkv => h kv (List.mem_cons_of_mem _ hkv)) _ (wellEncoded_set hj hkey hv)
  exact hfold (.obj []) rfl

end Json

/-- The part of `nlohmann::json` that reads and prints text. -/
structure JsonText where
  /-- `json::parse(text, nullptr, false)`, `none` for a discarded value. -/
  parse : Bytes → Option Json
  /-- The text of a value whose strings are all valid UTF-8. -/
  render : Json → Bytes

/-- `type_error` 316, thrown by `dump` for a string that is not valid UTF-8. -/
def Json.typeError316 : Exn := .std (ascii "[json.exception.type_error.316] invalid UTF-8 byte")

/-- `dump()` with the default error handler. -/
def JsonText.dump (text : JsonText) (j : Json) : MayThrow Bytes :=
  if j.wellEncoded then .ok (text.render j) else .error Json.typeError316

theorem JsonText.dump_of_wellEncoded (text : JsonText) {j : Json} (h : j.wellEncoded = true) :
    text.dump j = .ok (text.render j) := by
  unfold dump
  rw [if_pos h]

/-- Text of a few known documents, and one printed text. -/
def JsonText.known (documents : List (Bytes × Json)) (printed : Bytes) : JsonText :=
  { parse := fun b => documents.lookup b, render := fun _ => printed }

end GeminiCpp
