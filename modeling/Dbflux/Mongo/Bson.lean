import Dbflux.DocumentEdit.Stored
import Dbflux.Lib.Ensures

/-!
# BSON documents and their updates

Models of `value_to_bson`, `bson_at_path`, `integer_as`, `conform_to_existing`
and `patch_update_document` of `dbflux_driver_mongodb/src/document_ops.rs` (lines
12–251) and of `bson_to_value` of `driver.rs` (lines 4196–4237). Values and BSON
are trees of documents and arrays, so only their leaves are given here. What the
standard library, `chrono`, `bson` and `serde_json` do with a leaf is a parameter
(`Leaves`). The parts of BSON that no function here reads are left out: the scope
of a JavaScript value and the content of a DB pointer.

Results:
* `conformToExisting_fieldWise`: documents and arrays are written field by field
  and item by item over what is stored.
* `patchUpdateDocument_eq`: the update of a patch has every change under its dotted
  path.
-/

namespace Dbflux.Mongo

open Dbflux.Lib Dbflux.Lib.ValueTree Dbflux.DocumentEdit

/-! ## Leaves -/

/-- The variants of `Value` (`dbflux_core/src/core/value.rs`) other than `Array` and
`Document`. Instants are nanoseconds and dates are days since the epoch; a time
is nanoseconds since midnight. -/
inductive Scalar (F : Type)
  | null
  | bool (value : Bool)
  | int (value : ℤ)
  | float (value : F)
  | text (value : Text)
  | bytes (value : List UInt8)
  | json (value : Text)
  | decimal (value : Text)
  | dateTime (nanoseconds : ℤ)
  | date (days : ℤ)
  | time (nanoseconds : ℤ)
  | objectId (value : Text)
  | unsupported (typeName : Text)
deriving DecidableEq

/-- The variants of `bson::Bson` other than `Array` and `Document`. An object id is
its hexadecimal form. -/
inductive BsonScalar (F D : Type)
  | null
  | boolean (value : Bool)
  | int32 (value : ℤ)
  | int64 (value : ℤ)
  | double (value : F)
  | string (value : Text)
  | objectId (hex : Text)
  | dateTime (milliseconds : ℤ)
  | binary (subtype : ℕ) (bytes : List UInt8)
  | decimal128 (value : D)
  | regularExpression (pattern options : Text)
  | javaScriptCode (code : Text)
  | javaScriptCodeWithScope (code : Text)
  | timestamp (time increment : ℕ)
  | symbol (value : Text)
  | undefined
  | maxKey
  | minKey
  | dbPointer
deriving DecidableEq

/-- Numbers, instants and texts of the libraries the driver uses. A failure is the
text of the library's error. -/
structure Leaves where
  Float : Type
  Decimal : Type
  [decEqFloat : DecidableEq Float]
  [decEqDecimal : DecidableEq Decimal]
  /-- `==` on `f64`. -/
  floatEq : Float → Float → Bool
  /-- `integer as f64`. -/
  floatOfInt : ℤ → Float
  /-- `float as i64`. -/
  floatToInt : Float → ℤ
  /-- `float.fract() == 0.0 && float.is_finite()`. -/
  isWhole : Float → Bool
  displayFloat : Float → Text
  parseFloat : Text → Option Float
  displayDecimal : Decimal → Text
  parseDecimal : Text → Except Text Decimal
  /-- `ObjectId::parse_str`. -/
  parseObjectId : Text → Except Text Text
  displayTime : ℤ → Text
  /-- Whether `chrono::DateTime::from_timestamp_millis` has the instant. -/
  isInstant : ℤ → Bool
  displayMilliseconds : ℤ → Text
  /-- `serde_json::from_str` and `document_json_to_value`. -/
  parseJson : Text → Except Text (ValueTree (Scalar Float))
  /-- The number that a float and the text of a decimal stand for. -/
  floatNumber : Float → Option Rat
  decimalNumber : Text → Option Rat

attribute [instance] Leaves.decEqFloat Leaves.decEqDecimal

section Driver

variable (L : Leaves)

abbrev Value := ValueTree (Scalar L.Float)

abbrev Bson := ValueTree (BsonScalar L.Float L.Decimal)

/-- `bson::Document`. -/
abbrev Fields := List (Text × Bson L)

/-- `PartialEq` of `Value` on leaves. -/
def scalarEq : Scalar L.Float → Scalar L.Float → Bool
  | .float a, .float b => L.floatEq a b
  | a, b => a = b

/-- The number a leaf stands for. -/
def number : Scalar L.Float → Option Rat
  | .int i => some i
  | .float f => L.floatNumber f
  | .decimal text => L.decimalNumber text
  | _ => none

/-- Leaves that are the same up to the type of a number. -/
def sameValue (a b : Scalar L.Float) : Bool :=
  a = b || scalarEq L a b || (number L a).isSome && number L a = number L b

/-- A decimal number, as `format!` writes it. -/
def displayInt (n : ℤ) : Text := if n < 0 then '-' :: decimal n.natAbs else decimal n.natAbs

/-- `bson_to_value` (lines 4196–4239) on leaves. -/
def readScalar : BsonScalar L.Float L.Decimal → Scalar L.Float
  | .null => .null
  | .boolean b => .bool b
  | .int32 i => .int i
  | .int64 i => .int i
  | .double f => .float f
  | .string s => .text s
  | .objectId hex => .objectId hex
  | .dateTime millis =>
    if L.isInstant millis then .dateTime (millis * 1000000) else .text (L.displayMilliseconds millis)
  | .binary _ bytes => .bytes bytes
  | .decimal128 d => .decimal (L.displayDecimal d)
  | .regularExpression pattern options => .text ('/' :: pattern ++ '/' :: options)
  | .javaScriptCode code => .text code
  | .javaScriptCodeWithScope code => .text code
  | .timestamp time increment =>
    .text ("Timestamp(".toList ++ decimal time ++ ", ".toList ++ decimal increment ++ [')'])
  | .symbol s => .text s
  | .undefined => .null
  | .maxKey => .text "MaxKey".toList
  | .minKey => .text "MinKey".toList
  | .dbPointer => .text "DBPointer".toList

/-- `bson_to_value`. -/
def bsonToValue (bson : Bson L) : Value L := bson.map (readScalar L)

/-! ## Writing values -/

def i32Min : ℤ := -2 ^ 31

def i32Max : ℤ := 2 ^ 31 - 1

variable {L} in
/-- The arms of `value_to_bson` (lines 15–74) for leaves, with the BSON of a JSON
text given. -/
def scalarToBson (json : Text → Except Text (Bson L)) : Scalar L.Float → Except Text (Bson L)
  | .null => .ok (leaf .null)
  | .bool b => .ok (leaf (.boolean b))
  | .int i => .ok (leaf (if i32Min ≤ i ∧ i ≤ i32Max then .int32 i else .int64 i))
  | .float f => .ok (leaf (.double f))
  | .text s => .ok (leaf (.string s))
  | .bytes bytes => .ok (leaf (.binary 0 bytes))
  | .json s => json s
  | .decimal s =>
    match L.parseDecimal s with
    | .ok d => .ok (leaf (.decimal128 d))
    | .error e => .error ("Invalid decimal \"".toList ++ s ++ "\": ".toList ++ e)
  | .dateTime nanoseconds => .ok (leaf (.dateTime (nanoseconds / 1000000)))
  | .date days => .ok (leaf (.dateTime (days * 86400000)))
  | .time nanoseconds => .ok (leaf (.string (L.displayTime nanoseconds)))
  | .objectId s =>
    match L.parseObjectId s with
    | .ok hex => .ok (leaf (.objectId hex))
    | .error e => .error ("Invalid ObjectId \"".toList ++ s ++ "\": ".toList ++ e)
  | .unsupported typeName =>
    .error ("A ".toList ++ typeName ++ " value cannot be written back".toList)

mutual

/-- `value_to_bson` with the BSON of every leaf given. -/
def treeToBson (write : Scalar L.Float → Except Text (Bson L)) : Value L → Except Text (Bson L)
  | leaf scalar => write scalar
  | array items => do return array (← itemsToBson write items)
  | document fields => do return document (← fieldsToBson write fields)

def itemsToBson (write : Scalar L.Float → Except Text (Bson L)) :
    List (Value L) → Except Text (List (Bson L))
  | [] => .ok []
  | item :: rest => do return (← treeToBson write item) :: (← itemsToBson write rest)

def fieldsToBson (write : Scalar L.Float → Except Text (Bson L)) :
    List (Text × Value L) → Except Text (Fields L)
  | [] => .ok []
  | (key, field) :: rest => do
    let value ← treeToBson write field
    return (key, value) :: (← fieldsToBson write rest)

end

/-- The BSON of a JSON text (lines 28–32). `document_json_to_value` makes no JSON
leaf. -/
def jsonValueToBson (text : Text) : Except Text (Bson L) :=
  match L.parseJson text with
  | .ok value => treeToBson L (scalarToBson fun text => .error text) value
  | .error e => .error ("Invalid JSON value: ".toList ++ e)

/-- `value_to_bson` (lines 14–76). -/
def valueToBson (value : Value L) : Except Text (Bson L) :=
  treeToBson L (scalarToBson (jsonValueToBson L)) value

/-! ## Keeping the type of what is stored -/

/-- `numeric_mismatch` (lines 94–98). -/
def numericMismatch (value target : Text) : Text :=
  value ++ " cannot be stored in a field that holds ".toList ++ target ++
    " without changing its type".toList

/-- `integer_as` (lines 100–117). -/
def integerAs (existing : Bson L) (integer : ℤ) : Except Text (Option (Bson L)) :=
  match existing with
  | leaf (.int32 _) =>
    if i32Min ≤ integer ∧ integer ≤ i32Max then .ok (some (leaf (.int32 integer)))
    else .error (numericMismatch (displayInt integer) "Int32".toList)
  | leaf (.int64 _) => .ok (some (leaf (.int64 integer)))
  | leaf (.double _) => .ok (some (leaf (.double (L.floatOfInt integer))))
  | leaf (.decimal128 _) =>
    (L.parseDecimal (displayInt integer)).map fun d => some (leaf (.decimal128 d))
  | _ => .ok none

/-- `str::parse::<i64>`. -/
def parseI64 (text : Text) : Option ℤ :=
  let digits := if text.head? = some '-' ∨ text.head? = some '+' then text.tail else text
  let magnitude : ℤ := Nat.ofDigitChars 10 digits 0
  let value := if text.head? = some '-' then -magnitude else magnitude
  if digits ≠ [] ∧ digits.all isAsciiDigit ∧ -2 ^ 63 ≤ value ∧ value < 2 ^ 63 then some value
  else none

/-- An integer as what is stored, or as its own type. -/
def conformInteger (existing : Bson L) (integer : ℤ) (scalar : Scalar L.Float) :
    Except Text (Bson L) := do
  match ← integerAs L existing integer with
  | some conformed => return conformed
  | none => valueToBson L (leaf scalar)

/-- The arms of `conform_to_existing` (lines 130–174) for leaves. -/
def conformScalar (scalar : Scalar L.Float) (existing : Bson L) : Except Text (Bson L) :=
  match scalar with
  | .int integer => conformInteger L existing integer (.int integer)
  | .float float =>
    match existing with
    | leaf (.double _) => .ok (leaf (.double float))
    | leaf (.decimal128 _) =>
      (L.parseDecimal (L.displayFloat float)).map fun d => leaf (.decimal128 d)
    | leaf (.int32 _) | leaf (.int64 _) =>
      if L.isWhole float then conformInteger L existing (L.floatToInt float) (.float float)
      else .error (numericMismatch (L.displayFloat float) "an integer".toList)
    | _ => valueToBson L (leaf (.float float))
  | .decimal decimal =>
    match existing with
    | leaf (.double _) =>
      match L.parseFloat decimal with
      | some float => .ok (leaf (.double float))
      | none => .error (numericMismatch decimal "Double".toList)
    | leaf (.int32 _) | leaf (.int64 _) =>
      match parseI64 decimal with
      | some integer => conformInteger L existing integer (.decimal decimal)
      | none => .error (numericMismatch decimal "an integer".toList)
    | _ => valueToBson L (leaf (.decimal decimal))
  | other => valueToBson L (leaf other)

mutual

/-- `conform_to_existing` (lines 124–197) over a value that is stored. -/
def conformTo : Value L → Bson L → Except Text (Bson L)
  | leaf scalar, existing => conformScalar L scalar existing
  | document fields, existing =>
    match existing with
    | document stored => do return document (← conformFields fields stored)
    | _ => valueToBson L (document fields)
  | array items, existing =>
    match existing with
    | array stored => do return array (← conformItems items stored)
    | _ => valueToBson L (array items)

def conformFields : List (Text × Value L) → Fields L → Except Text (Fields L)
  | [], _ => .ok []
  | (key, field) :: rest, stored => do
    let value ← (match stored.lookup key with
      | some existing => conformTo field existing
      | none => valueToBson L field)
    return (key, value) :: (← conformFields rest stored)

def conformItems : List (Value L) → List (Bson L) → Except Text (List (Bson L))
  | [], _ => .ok []
  | item :: rest, stored => do
    let value ← (match stored.head? with
      | some existing => conformTo item existing
      | none => valueToBson L item)
    return value :: (← conformItems rest stored.tail)

end

/-- `conform_to_existing` (lines 124–197). -/
def conformToExisting (value : Value L) : Option (Bson L) → Except Text (Bson L)
  | some existing => conformTo L value existing
  | none => valueToBson L value

/-! ## The update of a patch -/

/-- The loop of `bson_at_path` (lines 81–88). -/
def bsonBehind : Path → Bson L → Option (Bson L)
  | [], cursor => some cursor
  | segment :: rest, document fields => (fields.lookup segment).bind (bsonBehind rest)
  | segment :: rest, array items =>
    (parseUsize segment).bind fun index => items[index]?.bind (bsonBehind rest)
  | _ :: _, leaf _ => none

/-- `bson_at_path` (lines 79–92). -/
def bsonAtPath (fields : Fields L) : Path → Option (Bson L)
  | [] => none
  | first :: rest => (fields.lookup first).bind (bsonBehind L rest)

/-- `patch_update_document` (lines 218–251). -/
def patchUpdateDocument (patch : DocumentPatch (Scalar L.Float)) (current : Option (Fields L)) :
    Except Text (Fields L) :=
  if patch.isEmpty then .error "The document patch has no changes".toList
  else do
    let set ← patch.set.foldlM (fun (set : Fields L) entry => do
      let existing := current.bind fun document => bsonAtPath L document entry.1
      return put (fieldPathToDotted entry.1) (← conformToExisting L entry.2 existing) set) []
    let unset := patch.unset.foldl (fun (unset : Fields L) path =>
      put (fieldPathToDotted path) (leaf (.string [])) unset) []
    return (if patch.set.isEmpty then [] else [("$set".toList, document set)]) ++
      (if patch.unset.isEmpty then [] else [("$unset".toList, document unset)])

/-! ## Field by field -/

variable {L}

theorem conformFields_spec {fields : List (Text × Value L)} {stored result : Fields L}
    (h : conformFields L fields stored = .ok result) :
    (∀ name, (result.lookup name).isSome = (fields.lookup name).isSome) ∧
      ∀ name field value, result.lookup name = some field → fields.lookup name = some value →
        conformToExisting L value (stored.lookup name) = .ok field := by
  induction fields generalizing result with
  | nil =>
    cases h
    exact ⟨fun _ => rfl, fun _ _ _ hfield => by cases hfield⟩
  | cons entry rest ih =>
    obtain ⟨key, value⟩ := entry
    obtain ⟨first, hfirst, h⟩ := bind_eq_ok.mp h
    obtain ⟨others, hothers, h⟩ := bind_eq_ok.mp h
    cases h
    obtain ⟨hnames, hvalues⟩ := ih hothers
    have hwritten : conformToExisting L value (stored.lookup key) = .ok first := by
      cases hstored : stored.lookup key with
      | none | some =>
        rw [hstored] at hfirst
        exact hfirst
    constructor
    · intro name
      by_cases hname : name = key
      · rw [hname, List.lookup_cons_self, List.lookup_cons_self]
        rfl
      · rw [lookup_cons_of_ne hname, lookup_cons_of_ne hname, hnames]
    · intro name field other hfield hother
      by_cases hname : name = key
      · rw [hname, List.lookup_cons_self] at hfield hother
        cases hfield
        cases hother
        rw [hname]
        exact hwritten
      · rw [lookup_cons_of_ne hname] at hfield hother
        exact hvalues name field other hfield hother

theorem conformItems_spec {items : List (Value L)} {stored result : List (Bson L)}
    (h : conformItems L items stored = .ok result) :
    result.length = items.length ∧
      ∀ (i : ℕ) item value, result[i]? = some item → items[i]? = some value →
        conformToExisting L value stored[i]? = .ok item := by
  induction items generalizing result stored with
  | nil =>
    cases h
    exact ⟨rfl, fun _ _ _ hitem => by cases hitem⟩
  | cons value rest ih =>
    obtain ⟨first, hfirst, h⟩ := bind_eq_ok.mp h
    obtain ⟨others, hothers, h⟩ := bind_eq_ok.mp h
    cases h
    obtain ⟨hlength, hvalues⟩ := ih hothers
    refine ⟨congrArg Nat.succ hlength, ?_⟩
    rintro (_ | i) item other hitem hother
    · cases hitem
      cases hother
      cases stored with
      | nil | cons => exact hfirst
    · have htail : stored.tail[i]? = stored[i + 1]? := by
        cases stored <;> simp
      rw [← htail]
      exact hvalues i item other hitem hother

/-- What `conform_to_existing` writes. -/
abbrev Written (L : Leaves) (value : Value L) (stored : Option (Bson L)) (bson : Bson L) : Prop :=
  conformToExisting L value stored = .ok bson

theorem conformToExisting_fieldWise : FieldWise (Written L) where
  document := by
    intro values stored tree h
    obtain ⟨fields, hfields, h⟩ := bind_eq_ok.mp h
    cases h
    exact ⟨fields, rfl, conformFields_spec hfields⟩
  array := by
    intro values stored tree h
    obtain ⟨items, hitems, h⟩ := bind_eq_ok.mp h
    cases h
    exact ⟨items, rfl, conformItems_spec hitems⟩

/-! ## Where a change leads -/

/-- The place of a change is the one `bson_at_path` finds. -/
theorem bsonBehind_eq_valueAt {eq : Scalar L.Float → Scalar L.Float → Bool} {path : Path}
    {stored : Bson L} {edited : Value L} {change : Option (Value L)} (hstored : WellFormed stored)
    (hedited : WellFormed edited)
    (h : (path, change) ∈ changes eq (stored.map (readScalar L)) edited) :
    bsonBehind L path stored = valueAt path stored := by
  induction path generalizing stored edited with
  | nil => rfl
  | cons name rest ih =>
    obtain ⟨fields, values, rfl, rfl, hfield⟩ |
        ⟨items, values, j, item, value, rfl, rfl, rfl, hj, hitem, hvalue, hrest⟩ :=
      stored_cons_cases hstored hedited h
    · rw [bsonBehind, valueAt]
      obtain ⟨field, value, hlookup, hvalue, hrest⟩ | ⟨rfl, -⟩ := hfield
      · rw [hlookup]
        exact ih (hstored.field hlookup) (hedited.field hvalue) hrest
      · rfl
    · simp only [bsonBehind, valueAt, parseUsize_decimal hj, position_decimal hj,
        Option.bind_some, hitem]
      exact ih (hstored.item hitem) (hedited.item hvalue) hrest

/-- The BSON that is written, where there is one. -/
def write (L : Leaves) (value : Value L) (stored : Option (Bson L)) : Bson L :=
  (conformToExisting L value stored).toOption.getD (leaf .null)

theorem set_of_foldlM (existing : Path → Option (Bson L)) {entries : List (Path × Value L)}
    {init set : Fields L}
    (h : entries.foldlM (fun (set : Fields L) entry => do
      return put (fieldPathToDotted entry.1)
        (← conformToExisting L entry.2 (existing entry.1)) set) init = .ok set) :
    set = putAll (entries.map fun entry =>
        (fieldPathToDotted entry.1, write L entry.2 (existing entry.1))) init ∧
      ∀ entry ∈ entries,
        Written L entry.2 (existing entry.1) (write L entry.2 (existing entry.1)) := by
  induction entries generalizing init with
  | nil =>
    cases h
    exact ⟨rfl, fun _ hmem => by cases hmem⟩
  | cons entry rest ih =>
    obtain ⟨next, hnext, hrest⟩ := bind_eq_ok.mp h
    obtain ⟨bson, hbson, hput⟩ := bind_eq_ok.mp hnext
    cases hput
    obtain ⟨hset, hwritten⟩ := ih hrest
    rw [List.forall_mem_cons]
    have hwrite : write L entry.2 (existing entry.1) = bson := by
      rw [write, hbson]
      rfl
    rw [← hwrite] at hset hbson
    exact ⟨hset, hbson, hwritten⟩

/-- **The update of a patch**: the fields of `$set` and of `$unset`. -/
theorem patchUpdateDocument_eq {patch : DocumentPatch (Scalar L.Float)} {current : Fields L}
    {update : Fields L} (h : patchUpdateDocument L patch (some current) = .ok update) :
    update = (if patch.set.isEmpty then [] else [("$set".toList, document (putAll
          (patch.set.map fun entry => (fieldPathToDotted entry.1,
            write L entry.2 (bsonAtPath L current entry.1))) []))]) ++
        (if patch.unset.isEmpty then [] else [("$unset".toList, document (putAll
          (patch.unset.map fun path => (fieldPathToDotted path, leaf (.string []))) []))]) ∧
      ∀ entry ∈ patch.set, Written L entry.2 (bsonAtPath L current entry.1)
        (write L entry.2 (bsonAtPath L current entry.1)) := by
  unfold patchUpdateDocument at h
  by_cases hempty : patch.isEmpty = true
  · rw [if_pos hempty] at h
    cases h
  rw [if_neg hempty] at h
  obtain ⟨set, hset, h⟩ := bind_eq_ok.mp h
  obtain ⟨rfl, hwritten⟩ := set_of_foldlM (fun path => bsonAtPath L current path) hset
  cases h
  refine ⟨?_, hwritten⟩
  simp only [putAll, List.foldl_map]

end Driver

end Dbflux.Mongo
