import Dbflux.Lib.Text

/-!
# JSON values

JSON values as `serde_json` holds them: an object is a map, so its members are a
list without a key twice, in the order in which the map is iterated. A number is
the text that is written for it. How values are read and written is a parameter
(`JsonCodec`): what is read is well formed, and different values are written
differently.
-/

namespace Dbflux.Lib

/-- `serde_json::Value`. -/
inductive Json
  | null
  | bool (value : Bool)
  | number (text : Text)
  | string (text : Text)
  | array (items : List Json)
  | object (members : List (Text × Json))

namespace Json

theorem induct {motive : Json → Prop} (null : motive null) (bool : ∀ b, motive (bool b))
    (number : ∀ text, motive (number text)) (string : ∀ text, motive (string text))
    (array : ∀ items, (∀ item ∈ items, motive item) → motive (array items))
    (object : ∀ members, (∀ member ∈ members, motive member.2) → motive (object members))
    (value : Json) : motive value := by
  refine @Json.rec motive (fun items => ∀ item ∈ items, motive item)
    (fun members => ∀ member ∈ members, motive member.2) (fun member => motive member.2)
    null bool number string array object ?_ ?_ ?_ ?_ ?_ value
  · simp
  · intro item rest hitem hrest
    exact List.forall_mem_cons.mpr ⟨hitem, hrest⟩
  · simp
  · intro member rest hmember hrest
    exact List.forall_mem_cons.mpr ⟨hmember, hrest⟩
  · intro key value hvalue
    exact hvalue

/-- The text of a string. -/
def string? : Json → Option Text
  | string text => some text
  | _ => none

theorem eq_string_of_string? {value : Json} {text : Text} (h : value.string? = some text) :
    value = string text := by
  cases value <;> simp_all [string?]

mutual

/-- Every object is a map, and every number is written the way `IsNumber` says. -/
def WellFormed (IsNumber : Text → Prop) : Json → Prop
  | number text => IsNumber text
  | array items => WellFormedItems IsNumber items
  | object members => (members.map Prod.fst).Nodup ∧ WellFormedMembers IsNumber members
  | _ => True

def WellFormedItems (IsNumber : Text → Prop) : List Json → Prop
  | [] => True
  | item :: rest => WellFormed IsNumber item ∧ WellFormedItems IsNumber rest

def WellFormedMembers (IsNumber : Text → Prop) : List (Text × Json) → Prop
  | [] => True
  | (_, value) :: rest => WellFormed IsNumber value ∧ WellFormedMembers IsNumber rest

end

end Json

/-- `serde_json::from_str` and `serde_json::to_string`, with the way numbers are
written. -/
structure JsonCodec where
  IsNumber : Text → Prop
  parse : Text → Option Json
  print : Json → Text
  wellFormed_of_parse : ∀ text value, parse text = some value → value.WellFormed IsNumber
  print_inj : ∀ v w : Json, v.WellFormed IsNumber → w.WellFormed IsNumber →
    print v = print w → v = w
  parse_nil : parse [] = none

end Dbflux.Lib
