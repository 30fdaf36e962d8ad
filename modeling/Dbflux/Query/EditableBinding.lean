import Mathlib

/-!
# Editable results of the query builder

`compute_editable_binding` (`dbflux_core/src/query/visual_query.rs`, lines 580–666)
decides whether the rows of a builder's result can be edited. It finds each key
column among the projected columns by table and name; the grid
(`dbflux_ui_document/src/data_grid_panel/grid.rs`, lines 203–216) takes the first
result column with the key's output name. A joined table's column of that name in
front of the key is then taken for the key.

Results:
* `columnOrigins_eq`: the origin of a name is that of the last column with it.
* `addressesSource_iff`: the keys of a binding are those that were looked up; rows are
  addressed by them, and only the source's own columns count as its columns, exactly if
  no such columns are projected.
-/

namespace Dbflux.Query

open List

/-! ## Builder specs -/

structure SourceTable where
  schema : Option String
  table : String
  tableAlias : String

/-- A column of the table with the alias `sourceAlias`. -/
structure ProjectedColumn where
  sourceAlias : String
  column : String
  outputAlias : Option String
deriving DecidableEq

inductive Projection
  | all
  | explicit (columns : List ProjectedColumn)

/-- The parts of `VisualQuerySpec` that are read here; a join is its `to_alias`, an
aggregate its alias. -/
structure VisualQuerySpec where
  source : SourceTable
  projection : Projection
  joins : List String
  groupBy : List (String × String)
  aggregates : List String

inductive ColumnOrigin
  | source | joined
deriving DecidableEq

structure EditableBinding where
  schema : Option String
  table : String
  pkColumns : List String
  columnOrigin : String → Option ColumnOrigin
  insertable : Bool

def VisualQuerySpec.isGrouped (spec : VisualQuerySpec) : Bool :=
  !spec.groupBy.isEmpty || !spec.aggregates.isEmpty

namespace ProjectedColumn

def outputKey (column : ProjectedColumn) : String := column.outputAlias.getD column.column

/-- The column is the source's column `name`. -/
def IsSource (source : SourceTable) (name : String) (column : ProjectedColumn) : Prop :=
  column.sourceAlias = source.tableAlias ∧ column.column = name

instance (source : SourceTable) (name : String) : DecidablePred (IsSource source name) :=
  fun _ => inferInstanceAs (Decidable (_ ∧ _))

def origin (source : SourceTable) (column : ProjectedColumn) : ColumnOrigin :=
  if column.sourceAlias = source.tableAlias then .source else .joined

end ProjectedColumn

/-- The output key of a key column, if it is projected without an alias. -/
def pkOutputKey (source : SourceTable) (columns : List ProjectedColumn) (name : String) :
    Option String :=
  match columns.find? fun column => column.IsSource source name with
  | some column => if column.outputAlias.isSome then none else some column.column
  | none => none

/-- The map that is filled in the order of the columns. -/
def columnOrigins (source : SourceTable) (columns : List ProjectedColumn) :
    String → Option ColumnOrigin :=
  columns.foldl (fun origins column =>
    Function.update origins column.outputKey (some (column.origin source))) fun _ => none

/-- `VisualQuerySpec::compute_editable_binding`. -/
def computeEditableBinding (spec : VisualQuerySpec)
    (pkLookup : SourceTable → Option (List String)) : Option EditableBinding :=
  if spec.isGrouped then none
  else do
    let pkNames ← pkLookup spec.source
    if pkNames.isEmpty then none
    else match spec.projection with
      | .all =>
        if !spec.joins.isEmpty then none
        else some ⟨spec.source.schema, spec.source.table, pkNames, fun _ => none, true⟩
      | .explicit columns => do
        let keys ← pkNames.mapM (pkOutputKey spec.source columns)
        some ⟨spec.source.schema, spec.source.table, keys, columnOrigins spec.source columns,
          spec.joins.isEmpty⟩

/-! ## Results -/

/-- A column of the result: its name and the column it shows. -/
structure ResultColumn where
  name : String
  sourceAlias : String
  column : String
deriving DecidableEq

/-- The columns of the result, when the tables have these columns. -/
def VisualQuerySpec.resultColumns (spec : VisualQuerySpec) (columnsOf : String → List String) :
    List ResultColumn :=
  match spec.projection with
  | .all => (spec.source.tableAlias :: spec.joins).flatMap fun table =>
      (columnsOf table).map fun column => ⟨column, table, column⟩
  | .explicit columns => columns.map fun column =>
      ⟨column.outputKey, column.sourceAlias, column.column⟩

/-- The first column with a key's name is the source's key, and a name counts as the
source's only for columns of the source. -/
def AddressesSource (spec : VisualQuerySpec) (columns : List ResultColumn)
    (binding : EditableBinding) : Prop :=
  (∀ key ∈ binding.pkColumns, columns.find? (fun column => decide (column.name = key)) =
    some ⟨key, spec.source.tableAlias, key⟩) ∧
  ∀ column ∈ columns, binding.columnOrigin column.name = some .source →
    column.sourceAlias = spec.source.tableAlias

/-- No column in front of a key column has its name, and the last column with the
name of a joined table's column is one of a joined table. -/
def Projection.Unshadowed (source : SourceTable) (keys : List String) : Projection → Prop
  | .all => True
  | .explicit columns =>
    (∀ key ∈ keys, ∀ column ∈ columns.takeWhile (fun column => ¬ column.IsSource source key),
      column.outputKey ≠ key) ∧
    ∀ column ∈ columns, column.sourceAlias ≠ source.tableAlias →
      ∀ last ∈ columns.reverse.find? (fun other => decide (other.outputKey = column.outputKey)),
        last.sourceAlias ≠ source.tableAlias

variable {spec : VisualQuerySpec} {pkLookup : SourceTable → Option (List String)}
  {binding : EditableBinding} {source : SourceTable} {columns : List ProjectedColumn}

theorem columnOrigins_eq (source : SourceTable) (columns : List ProjectedColumn) (key : String) :
    columnOrigins source columns key =
      (columns.reverse.find? fun column => decide (column.outputKey = key)).map
        (ProjectedColumn.origin source) := by
  induction columns using reverseRecOn with
  | nil => rfl
  | append_singleton columns column ih =>
    rw [columnOrigins, foldl_append, foldl_cons, foldl_nil, reverse_append, reverse_singleton,
      singleton_append, find?_cons]
    by_cases hkey : column.outputKey = key
    · rw [← hkey, Function.update_self, decide_eq_true rfl]
      rfl
    · rw [Function.update_of_ne (Ne.symm hkey), decide_eq_false hkey]
      exact ih

theorem pkOutputKey_eq_some {name key : String} (h : pkOutputKey source columns name = some key) :
    key = name ∧ ∃ own, columns.find? (fun column => column.IsSource source name) = some own ∧
      own.outputKey = name := by
  unfold pkOutputKey at h
  split at h
  next own hfind =>
    obtain ⟨hplain, h⟩ := Option.ite_none_left_eq_some.mp h
    cases h
    have hown := find?_some hfind
    obtain rfl := (of_decide_eq_true hown).2
    exact ⟨rfl, own, hfind, by simp_all [ProjectedColumn.outputKey]⟩
  next => cases h

/-- The keys are the names that were looked up, each projected without an alias. -/
theorem keys_of_mapM {names keys : List String}
    (h : names.mapM (pkOutputKey source columns) = some keys) :
    keys = names ∧ ∀ name ∈ names,
      ∃ own, columns.find? (fun column => column.IsSource source name) = some own ∧
        own.outputKey = name := by
  induction names generalizing keys with
  | nil =>
    cases h
    exact ⟨rfl, forall_mem_nil _⟩
  | cons name names ih =>
    rw [mapM_cons] at h
    obtain ⟨key, hkey, h⟩ := Option.bind_eq_some_iff.mp h
    obtain ⟨rest, hrest, h⟩ := Option.bind_eq_some_iff.mp h
    cases h
    obtain ⟨rfl, hown⟩ := pkOutputKey_eq_some hkey
    obtain ⟨rfl, hothers⟩ := ih hrest
    exact ⟨rfl, forall_mem_cons.mpr ⟨hown, hothers⟩⟩

/-- The first element with the property `q` of `own` has `p`, like `own`. -/
theorem find?_iff_takeWhile {α : Type} {p q : α → Bool} {own : α} {l : List α}
    (hown : l.find? p = some own) (hq : q own) :
    (∃ x, l.find? q = some x ∧ p x) ↔ ∀ x ∈ l.takeWhile (fun x => !p x), ¬ q x := by
  induction l with
  | nil => cases hown
  | cons x rest ih =>
    cases hp : p x with
    | true =>
      rw [find?_cons_of_pos hp] at hown
      cases hown
      simp [hp, hq]
    | false =>
      rw [find?_cons_of_neg (by simp [hp])] at hown
      cases hx : q x with
      | true => simp [hp, hx]
      | false => simp [hp, hx, ih hown]

/-- **Rows are addressed by the source's own key**, which is the one that was looked
up, exactly if no projected column shadows a column of the source. -/
theorem addressesSource_iff {columnsOf : String → List String} {pkNames : List String}
    (h : computeEditableBinding spec pkLookup = some binding)
    (hlookup : pkLookup spec.source = some pkNames)
    (hkeys : ∀ name ∈ pkNames, name ∈ columnsOf spec.source.tableAlias) :
    binding.pkColumns = pkNames ∧
    (AddressesSource spec (spec.resultColumns columnsOf) binding ↔
      spec.projection.Unshadowed spec.source pkNames) := by
  obtain ⟨-, h⟩ := Option.ite_none_left_eq_some.mp h
  obtain ⟨names, hnames, h⟩ := Option.bind_eq_some_iff.mp h
  cases hnames.symm.trans hlookup
  obtain ⟨-, h⟩ := Option.ite_none_left_eq_some.mp h
  unfold VisualQuerySpec.resultColumns
  cases hprojection : spec.projection with
  | all =>
    rw [hprojection] at h
    obtain ⟨hjoins, h⟩ := Option.ite_none_left_eq_some.mp h
    cases h
    have hnone : spec.joins = [] := by simpa using hjoins
    refine ⟨rfl, iff_of_true ⟨fun key hkey => ?_, fun column _ horigin => by cases horigin⟩ trivial⟩
    simp only [hnone, flatMap_cons, flatMap_nil, append_nil, find?_map, Function.comp_def]
    have hfind : (columnsOf spec.source.tableAlias).find? (fun column => decide (column = key)) =
        some key := by
      obtain ⟨found, hfound⟩ := Option.isSome_iff_exists.mp
        (find?_isSome (p := fun column => decide (column = key)) |>.mpr
          ⟨key, hkeys key hkey, decide_eq_true rfl⟩)
      have hsame := find?_some hfound
      rwa [of_decide_eq_true hsame] at hfound
    rw [hfind]
    rfl
  | explicit columns =>
    rw [hprojection] at h
    obtain ⟨keys, hprojected, h⟩ := Option.bind_eq_some_iff.mp h
    cases h
    obtain ⟨rfl, howns⟩ := keys_of_mapM hprojected
    refine ⟨rfl, and_congr (forall₂_congr fun key hkey => ?_) ?_⟩
    · obtain ⟨own, hown, hkey⟩ := howns key hkey
      have hiff := find?_iff_takeWhile (q := fun column => decide (column.outputKey = key)) hown
        (decide_eq_true hkey)
      simp only [decide_eq_true_eq, ← decide_not] at hiff
      rw [← hiff, find?_map, Option.map_eq_some_iff]
      refine exists_congr fun first => and_congr_right fun hfirst => ?_
      have hsame := find?_some hfirst
      simp_all [ProjectedColumn.IsSource]
    · simp only [forall_mem_map, columnOrigins_eq, Option.map_eq_some_iff]
      refine forall₂_congr fun column hmem => ?_
      constructor
      · intro horigin hjoined last hlast hsource
        exact hjoined (horigin ⟨last, hlast, if_pos hsource⟩)
      · rintro hlast ⟨last, hfind, horigin⟩
        by_contra hjoined
        have hother := hlast hjoined last hfind
        rw [ProjectedColumn.origin, if_neg hother] at horigin
        cases horigin

/-- Orders joined to their users. -/
def ordersOfUsers (columns : List ProjectedColumn) : VisualQuerySpec where
  source := ⟨none, "orders", "o"⟩
  projection := .explicit columns
  joins := ["u"]
  groupBy := []
  aggregates := []

/-- The user's id is shown behind the order's. -/
theorem user_id_behind : ∃ binding ∈ computeEditableBinding
      (ordersOfUsers [⟨"o", "id", none⟩, ⟨"u", "id", some "user"⟩]) fun _ => some ["id"],
    AddressesSource (ordersOfUsers [⟨"o", "id", none⟩, ⟨"u", "id", some "user"⟩])
      [⟨"id", "o", "id"⟩, ⟨"user", "u", "id"⟩] binding :=
  ⟨_, rfl, (@addressesSource_iff _ (fun _ => some ["id"]) _ (fun _ => ["id"]) ["id"] rfl rfl
    (by decide)).2.mpr ⟨by decide, by decide⟩⟩

/-- With the user's id in front, the rows of orders are addressed by it. -/
theorem user_id_in_front :
    ∃ binding ∈ computeEditableBinding (ordersOfUsers [⟨"u", "id", none⟩, ⟨"o", "id", none⟩])
      fun _ => some ["id"],
    ¬ AddressesSource (ordersOfUsers [⟨"u", "id", none⟩, ⟨"o", "id", none⟩])
      [⟨"id", "u", "id"⟩, ⟨"id", "o", "id"⟩] binding :=
  ⟨_, rfl, fun h => absurd (h.1 "id" (by decide)) (by decide)⟩

end Dbflux.Query
