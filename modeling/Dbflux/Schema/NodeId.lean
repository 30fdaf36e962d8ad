import Dbflux.Lib.SplitN

/-!
# Ids of schema tree nodes

Every node of the sidebar tree has a text id (`SchemaNodeId`,
`dbflux_core/src/schema/node_id`). `Display` writes the tag of the variant and
its fields with a bar between them; `FromStr` splits the text at its first five
bars and reads the parts back.

Results:
* `SchemaNodeKind.ofTag_tag`: the tags tell the variants apart.
-/

namespace Dbflux.Schema

open Lib

/-- The text form of a `Uuid`: what is used of the library that provides it. -/
structure UuidText (U : Type) where
  format : U → Text
  parse : Text → Option U
  parse_format : ∀ u, parse (format u) = some u
  bar_not_mem : ∀ u, '|' ∉ format u

/-- A hexadecimal digit. -/
def hexDigit (d : Fin 16) : Char := Nat.digitChar d

/-- The digit that a character stands for. -/
def digitOf (c : Char) : Fin 16 := Fin.ofNat 16 ((hexValue c).getD 0)

theorem digitOf_hexDigit : ∀ d, digitOf (hexDigit d) = d := by decide

theorem hexDigit_ne : ∀ d, hexDigit d ≠ '-' ∧ hexDigit d ≠ '|' := by decide

/-- The digits with hyphens between their groups. -/
def hyphenate (digits : List (Fin 16)) : Text :=
  let group (start length : ℕ) : Text := ((digits.drop start).take length).map hexDigit
  group 0 8 ++ '-' :: (group 8 4 ++ '-' :: (group 12 4 ++ '-' :: (group 16 4 ++ '-' ::
    (digits.drop 20).map hexDigit)))

theorem digitOf_hyphenate (digits : List (Fin 16)) :
    ((hyphenate digits).filter (· ≠ '-')).map digitOf = digits := by
  have hgroup : ∀ digits : List (Fin 16),
      ((digits.map hexDigit).filter (· ≠ '-')).map digitOf = digits := by
    intro digits
    rw [List.filter_eq_self.mpr (by simp [hexDigit_ne]), List.map_map,
      show digitOf ∘ hexDigit = id from funext digitOf_hexDigit, List.map_id]
  have hdrop : ∀ n m, digits.drop (n + m) = (digits.drop n).drop m := by simp
  simp only [hyphenate, List.filter_append, List.map_append, List.filter_cons, ne_eq, not_true,
    decide_false, Bool.false_eq_true, if_false, hgroup]
  rw [hdrop 16 4, List.take_append_drop, hdrop 12 4, List.take_append_drop, hdrop 8 4,
    List.take_append_drop, hdrop 0 8, List.take_append_drop, List.drop_zero]

/-- The hyphenated form of 32 hexadecimal digits. -/
def UuidText.hyphenated : UuidText { digits : List (Fin 16) // digits.length = 32 } where
  format := fun u => hyphenate u.val
  parse := fun text =>
    let digits := (text.filter (· ≠ '-')).map digitOf
    if h : digits.length = 32 then some ⟨digits, h⟩ else none
  parse_format := by
    intro u
    simp only [digitOf_hyphenate, u.property, dite_true]
  bar_not_mem := by
    intro u
    have hgroup : ∀ digits : List (Fin 16), '|' ∉ digits.map hexDigit := by simp [hexDigit_ne]
    simp only [hyphenate, List.mem_append, List.mem_cons, hgroup, false_or, or_false]
    decide

/-- The nil uuid. -/
def nilUuid : { digits : List (Fin 16) // digits.length = 32 } := ⟨List.replicate 32 0, by simp⟩

/-- `SchemaNodeId` (`mod.rs`, lines 18–410). -/
inductive SchemaNodeId (U : Type) where
  | connectionFolder (nodeId : U)
  | profile (profileId : U)
  | databasesFolder (profileId : U)
  | database (profileId : U) (name : Text)
  | emptyDatabasesFolder (profileId : U)
  | loading (profileId : U) (database : Text)
  | schema (profileId : U) (database : Option Text) (name : Text)
  | tablesFolder (profileId : U) (database : Option Text) (schema : Text)
  | viewsFolder (profileId : U) (database : Option Text) (schema : Text)
  | typesFolder (profileId : U) (database schema : Text)
  | typesLoadingFolder (profileId : U) (database schema : Text)
  | schemaIndexesFolder (profileId : U) (database schema : Text)
  | schemaIndexesLoadingFolder (profileId : U) (database schema : Text)
  | schemaForeignKeysFolder (profileId : U) (database schema : Text)
  | schemaForeignKeysLoadingFolder (profileId : U) (database schema : Text)
  | routinesFolder (profileId : U) (database schema : Text)
  | routinesLoadingFolder (profileId : U) (database schema : Text)
  | collectionsFolder (profileId : U) (database : Text)
  | metricsFolder (profileId : U) (database : Text)
  | metricNamespaceFolder (profileId : U) (database metricNamespace : Text)
  | metricLeaf (profileId : U) (database metricNamespace metricName : Text)
  | dashboardsFolder (profileId : U)
  | dashboardItem (profileId dashboardId : U)
  | remoteDashboardsFolder (profileId : U)
  | remoteDashboardItem (profileId : U) (name : Text)
  | savedChartsFolder (profileId : U)
  | savedChartItem (profileId chartId : U)
  | table (profileId : U) (database : Option Text) (schema name : Text)
  | view (profileId : U) (database : Option Text) (schema name : Text)
  | collection (profileId : U) (database name : Text)
  | collectionChild (profileId : U) (database collection childId name : Text)
  | collectionChildrenMore (profileId : U) (database collection : Text)
  | customType (profileId : U) (schema name : Text)
  | columnsFolder (profileId : U) (schema table : Text)
  | indexesFolder (profileId : U) (schema table : Text)
  | foreignKeysFolder (profileId : U) (schema table : Text)
  | constraintsFolder (profileId : U) (schema table : Text)
  | storageHintsFolder (profileId : U) (schema table : Text)
  | column (profileId : U) (table name : Text)
  | index (profileId : U) (table name : Text)
  | foreignKey (profileId : U) (table name : Text)
  | constraint (profileId : U) (table name : Text)
  | storageHintItem (profileId : U) (table name : Text)
  | schemaIndex (profileId : U) (schema name : Text)
  | schemaForeignKey (profileId : U) (schema name : Text)
  | routine (profileId : U) (schema specificName : Text)
  | databaseIndexesFolder (profileId : U) (database : Text)
  | collectionFieldsFolder (profileId : U) (database collection : Text)
  | collectionField (profileId : U) (collection name : Text)
  | collectionIndexesFolder (profileId : U) (database collection : Text)
  | collectionIndex (profileId : U) (collection name : Text)
  | enumValue (profileId : U) (schema typeName value : Text)
  | baseType (profileId : U) (schema typeName : Text)
  | placeholder (profileId : U) (schema table : Text)
  | dependentsFolder (profileId : U) (schema table : Text)
  | dependentItem (profileId : U) (schema table name : Text)
  | scriptsFolder (path : Option Text)
  | scriptFile (path : Text)
  | scriptsRoot (path : Text)
  | instanceMetricsFolder (profileId : U)
  | instanceMetricLeaf (profileId : U) (metricId : Text)
  | instanceInspectorsFolder (profileId : U)
  | instanceInspectorLeaf (profileId : U) (metricId : Text)
  | instanceFolder (profileId : U)
  | instanceOverviewLeaf (profileId : U)
  | bucket (profileId : U) (name : Text)
  | bucketsFolder (profileId : U)
  | secretStore (profileId : U) (storeId : Text)
  | secretPath (profileId : U) (storeId path : Text)

/-- `SchemaNodeKind` (`mod.rs`, lines 414–484). -/
inductive SchemaNodeKind where
  | connectionFolder | profile | databasesFolder | database | emptyDatabasesFolder | loading
  | schema | tablesFolder | viewsFolder | typesFolder | typesLoadingFolder | schemaIndexesFolder
  | schemaIndexesLoadingFolder | schemaForeignKeysFolder | schemaForeignKeysLoadingFolder
  | routinesFolder | routinesLoadingFolder | collectionsFolder | metricsFolder
  | metricNamespaceFolder | metricLeaf | dashboardsFolder | dashboardItem | remoteDashboardsFolder
  | remoteDashboardItem | savedChartsFolder | savedChartItem | table | view | collection
  | collectionChild | collectionChildrenMore | customType | columnsFolder | indexesFolder
  | foreignKeysFolder | constraintsFolder | storageHintsFolder | column | index | foreignKey
  | constraint | storageHintItem | schemaIndex | schemaForeignKey | routine
  | databaseIndexesFolder | collectionFieldsFolder | collectionField | collectionIndexesFolder
  | collectionIndex | enumValue | baseType | placeholder | dependentsFolder | dependentItem
  | scriptsFolder | scriptFile | scriptsRoot | instanceMetricsFolder | instanceMetricLeaf
  | instanceInspectorsFolder | instanceInspectorLeaf | instanceFolder | instanceOverviewLeaf
  | bucket | bucketsFolder | secretStore | secretPath
  deriving DecidableEq

/-- `SchemaNodeId::kind` (`mod.rs`, lines 487–561). -/
def SchemaNodeId.kind {U : Type} : SchemaNodeId U → SchemaNodeKind
  | .connectionFolder .. => .connectionFolder
  | .profile .. => .profile
  | .databasesFolder .. => .databasesFolder
  | .database .. => .database
  | .emptyDatabasesFolder .. => .emptyDatabasesFolder
  | .loading .. => .loading
  | .schema .. => .schema
  | .tablesFolder .. => .tablesFolder
  | .viewsFolder .. => .viewsFolder
  | .typesFolder .. => .typesFolder
  | .typesLoadingFolder .. => .typesLoadingFolder
  | .schemaIndexesFolder .. => .schemaIndexesFolder
  | .schemaIndexesLoadingFolder .. => .schemaIndexesLoadingFolder
  | .schemaForeignKeysFolder .. => .schemaForeignKeysFolder
  | .schemaForeignKeysLoadingFolder .. => .schemaForeignKeysLoadingFolder
  | .routinesFolder .. => .routinesFolder
  | .routinesLoadingFolder .. => .routinesLoadingFolder
  | .collectionsFolder .. => .collectionsFolder
  | .metricsFolder .. => .metricsFolder
  | .metricNamespaceFolder .. => .metricNamespaceFolder
  | .metricLeaf .. => .metricLeaf
  | .dashboardsFolder .. => .dashboardsFolder
  | .dashboardItem .. => .dashboardItem
  | .remoteDashboardsFolder .. => .remoteDashboardsFolder
  | .remoteDashboardItem .. => .remoteDashboardItem
  | .savedChartsFolder .. => .savedChartsFolder
  | .savedChartItem .. => .savedChartItem
  | .table .. => .table
  | .view .. => .view
  | .collection .. => .collection
  | .collectionChild .. => .collectionChild
  | .collectionChildrenMore .. => .collectionChildrenMore
  | .customType .. => .customType
  | .columnsFolder .. => .columnsFolder
  | .indexesFolder .. => .indexesFolder
  | .foreignKeysFolder .. => .foreignKeysFolder
  | .constraintsFolder .. => .constraintsFolder
  | .storageHintsFolder .. => .storageHintsFolder
  | .column .. => .column
  | .index .. => .index
  | .foreignKey .. => .foreignKey
  | .constraint .. => .constraint
  | .storageHintItem .. => .storageHintItem
  | .schemaIndex .. => .schemaIndex
  | .schemaForeignKey .. => .schemaForeignKey
  | .routine .. => .routine
  | .databaseIndexesFolder .. => .databaseIndexesFolder
  | .collectionFieldsFolder .. => .collectionFieldsFolder
  | .collectionField .. => .collectionField
  | .collectionIndexesFolder .. => .collectionIndexesFolder
  | .collectionIndex .. => .collectionIndex
  | .enumValue .. => .enumValue
  | .baseType .. => .baseType
  | .placeholder .. => .placeholder
  | .dependentsFolder .. => .dependentsFolder
  | .dependentItem .. => .dependentItem
  | .scriptsFolder .. => .scriptsFolder
  | .scriptFile .. => .scriptFile
  | .scriptsRoot .. => .scriptsRoot
  | .instanceMetricsFolder .. => .instanceMetricsFolder
  | .instanceMetricLeaf .. => .instanceMetricLeaf
  | .instanceInspectorsFolder .. => .instanceInspectorsFolder
  | .instanceInspectorLeaf .. => .instanceInspectorLeaf
  | .instanceFolder .. => .instanceFolder
  | .instanceOverviewLeaf .. => .instanceOverviewLeaf
  | .bucket .. => .bucket
  | .bucketsFolder .. => .bucketsFolder
  | .secretStore .. => .secretStore
  | .secretPath .. => .secretPath

namespace SchemaNodeKind

/-- The `P_…` constants (`mod.rs`, lines 640–714). -/
def tag : SchemaNodeKind → Text
  | .connectionFolder => "CF".toList
  | .profile => "P".toList
  | .databasesFolder => "DBSF".toList
  | .database => "DB".toList
  | .emptyDatabasesFolder => "EDBF".toList
  | .loading => "LD".toList
  | .schema => "S".toList
  | .tablesFolder => "TF".toList
  | .viewsFolder => "VF".toList
  | .typesFolder => "YF".toList
  | .typesLoadingFolder => "YL".toList
  | .schemaIndexesFolder => "XF".toList
  | .schemaIndexesLoadingFolder => "XL".toList
  | .schemaForeignKeysFolder => "KF".toList
  | .schemaForeignKeysLoadingFolder => "KL".toList
  | .routinesFolder => "RTF".toList
  | .routinesLoadingFolder => "RTL".toList
  | .collectionsFolder => "CF2".toList
  | .metricsFolder => "MF".toList
  | .metricNamespaceFolder => "MNF".toList
  | .metricLeaf => "ML".toList
  | .dashboardsFolder => "DBF".toList
  | .dashboardItem => "DBI".toList
  | .remoteDashboardsFolder => "RDBF".toList
  | .remoteDashboardItem => "RDBI".toList
  | .savedChartsFolder => "SCRF".toList
  | .savedChartItem => "SCRI".toList
  | .table => "T".toList
  | .view => "V".toList
  | .collection => "C".toList
  | .collectionChild => "CCH".toList
  | .collectionChildrenMore => "CCM".toList
  | .customType => "Y".toList
  | .columnsFolder => "CLF".toList
  | .indexesFolder => "IXF".toList
  | .foreignKeysFolder => "FKF".toList
  | .constraintsFolder => "CSF".toList
  | .storageHintsFolder => "SHF".toList
  | .column => "CL".toList
  | .index => "IX".toList
  | .foreignKey => "FK".toList
  | .constraint => "CS".toList
  | .storageHintItem => "SHI".toList
  | .schemaIndex => "SX".toList
  | .schemaForeignKey => "SK".toList
  | .routine => "RT".toList
  | .databaseIndexesFolder => "DIF".toList
  | .collectionFieldsFolder => "CFF".toList
  | .collectionField => "CFD".toList
  | .collectionIndexesFolder => "CIF".toList
  | .collectionIndex => "CI".toList
  | .enumValue => "EV".toList
  | .baseType => "BT".toList
  | .placeholder => "PH".toList
  | .dependentsFolder => "DEPF".toList
  | .dependentItem => "DEP".toList
  | .scriptsFolder => "SCF".toList
  | .scriptFile => "SCR".toList
  | .scriptsRoot => "SCX".toList
  | .instanceMetricsFolder => "IMF".toList
  | .instanceMetricLeaf => "IML".toList
  | .instanceInspectorsFolder => "IIF".toList
  | .instanceInspectorLeaf => "IIL".toList
  | .instanceFolder => "INSF".toList
  | .instanceOverviewLeaf => "IOL".toList
  | .bucket => "BKT".toList
  | .bucketsFolder => "BKTF".toList
  | .secretStore => "SST".toList
  | .secretPath => "SSP".toList

/-- All variants. -/
def all : List SchemaNodeKind :=
  [.connectionFolder, .profile, .databasesFolder, .database, .emptyDatabasesFolder, .loading,
   .schema, .tablesFolder, .viewsFolder, .typesFolder, .typesLoadingFolder, .schemaIndexesFolder,
   .schemaIndexesLoadingFolder, .schemaForeignKeysFolder, .schemaForeignKeysLoadingFolder,
   .routinesFolder, .routinesLoadingFolder, .collectionsFolder, .metricsFolder,
   .metricNamespaceFolder, .metricLeaf, .dashboardsFolder, .dashboardItem,
   .remoteDashboardsFolder, .remoteDashboardItem, .savedChartsFolder, .savedChartItem, .table,
   .view, .collection, .collectionChild, .collectionChildrenMore, .customType, .columnsFolder,
   .indexesFolder, .foreignKeysFolder, .constraintsFolder, .storageHintsFolder, .column, .index,
   .foreignKey, .constraint, .storageHintItem, .schemaIndex, .schemaForeignKey, .routine,
   .databaseIndexesFolder, .collectionFieldsFolder, .collectionField, .collectionIndexesFolder,
   .collectionIndex, .enumValue, .baseType, .placeholder, .dependentsFolder, .dependentItem,
   .scriptsFolder, .scriptFile, .scriptsRoot, .instanceMetricsFolder, .instanceMetricLeaf,
   .instanceInspectorsFolder, .instanceInspectorLeaf, .instanceFolder, .instanceOverviewLeaf,
   .bucket, .bucketsFolder, .secretStore, .secretPath]

/-- The variant with a tag. -/
def ofTag (tag : Text) : Option SchemaNodeKind := all.find? (·.tag = tag)

variable (kind : SchemaNodeKind)

theorem mem_all : kind ∈ all := by
  cases kind <;> decide

/-- Every variant has its own tag. -/
theorem ofTag_tag : ofTag kind.tag = some kind := by
  have h : ∀ kind ∈ all, ofTag kind.tag = some kind := by decide +kernel
  exact h kind (mem_all kind)

theorem bar_not_mem_tag : '|' ∉ kind.tag := by
  have h : ∀ kind ∈ all, '|' ∉ kind.tag := by decide +kernel
  exact h kind (mem_all kind)

end SchemaNodeKind

/-! ## Writing -/

variable {U : Type} (codec : UuidText U)

/-- The fields of an id in the order in which `Display` writes them
(`display.rs`, lines 117–689). -/
def SchemaNodeId.fields : SchemaNodeId U → List Text
  | .connectionFolder u | .profile u | .databasesFolder u | .emptyDatabasesFolder u
  | .dashboardsFolder u | .remoteDashboardsFolder u | .savedChartsFolder u
  | .instanceMetricsFolder u | .instanceInspectorsFolder u | .instanceFolder u
  | .instanceOverviewLeaf u | .bucketsFolder u => [codec.format u]
  | .database u a | .loading u a | .collectionsFolder u a | .metricsFolder u a
  | .remoteDashboardItem u a | .databaseIndexesFolder u a | .instanceMetricLeaf u a
  | .instanceInspectorLeaf u a | .bucket u a | .secretStore u a => [codec.format u, a]
  | .typesFolder u a b | .typesLoadingFolder u a b | .schemaIndexesFolder u a b
  | .schemaIndexesLoadingFolder u a b | .schemaForeignKeysFolder u a b
  | .schemaForeignKeysLoadingFolder u a b | .routinesFolder u a b
  | .routinesLoadingFolder u a b | .metricNamespaceFolder u a b | .collection u a b
  | .collectionChildrenMore u a b | .customType u a b | .columnsFolder u a b
  | .indexesFolder u a b | .foreignKeysFolder u a b | .constraintsFolder u a b
  | .storageHintsFolder u a b | .column u a b | .index u a b | .foreignKey u a b
  | .constraint u a b | .storageHintItem u a b | .schemaIndex u a b | .schemaForeignKey u a b
  | .routine u a b | .collectionFieldsFolder u a b | .collectionField u a b
  | .collectionIndexesFolder u a b | .collectionIndex u a b | .baseType u a b
  | .placeholder u a b | .dependentsFolder u a b | .secretPath u a b => [codec.format u, a, b]
  | .metricLeaf u a b c | .enumValue u a b c | .dependentItem u a b c =>
    [codec.format u, a, b, c]
  | .collectionChild u a b c d => [codec.format u, a, b, c, d]
  | .dashboardItem u v | .savedChartItem u v => [codec.format u, codec.format v]
  -- The database comes last, so that it can be left out.
  | .schema u d a | .tablesFolder u d a | .viewsFolder u d a => [codec.format u, a] ++ d.toList
  | .table u d a b | .view u d a b => [codec.format u, a, b] ++ d.toList
  | .scriptsFolder path => path.toList
  | .scriptFile path | .scriptsRoot path => [path]

/-- `Display for SchemaNodeId` (`display.rs`, lines 22–115). -/
def SchemaNodeId.display (id : SchemaNodeId U) : Text := join '|' (id.kind.tag :: id.fields codec)

/-! ## Reading -/

/-- `Uuid::parse_str(parts.get(i)?)`. -/
def uuidAt (parts : List Text) (i : ℕ) : Option U := parts[i]?.bind codec.parse

/-- The arms that read only an id. -/
def ofProfile (make : U → SchemaNodeId U) (parts : List Text) : Option (SchemaNodeId U) := do
  some (make (← uuidAt codec parts 1))

/-- The arms that read one name. -/
def ofName (make : U → Text → SchemaNodeId U) (parts : List Text) : Option (SchemaNodeId U) := do
  some (make (← uuidAt codec parts 1) (← parts[2]?))

/-- The arms that read two names. -/
def ofNames (make : U → Text → Text → SchemaNodeId U) (parts : List Text) :
    Option (SchemaNodeId U) := do
  some (make (← uuidAt codec parts 1) (← parts[2]?) (← parts[3]?))

/-- The arms that read three names. -/
def ofThreeNames (make : U → Text → Text → Text → SchemaNodeId U) (parts : List Text) :
    Option (SchemaNodeId U) := do
  some (make (← uuidAt codec parts 1) (← parts[2]?) (← parts[3]?) (← parts[4]?))

/-- The arms that read two ids. -/
def ofIds (make : U → U → SchemaNodeId U) (parts : List Text) : Option (SchemaNodeId U) := do
  some (make (← uuidAt codec parts 1) (← uuidAt codec parts 2))

/-- The arms that read a name and perhaps a database behind it. -/
def ofNameIn (make : U → Option Text → Text → SchemaNodeId U) (parts : List Text) :
    Option (SchemaNodeId U) := do
  some (make (← uuidAt codec parts 1) parts[3]? (← parts[2]?))

/-- The arms that read two names and perhaps a database behind them. -/
def ofNamesIn (make : U → Option Text → Text → Text → SchemaNodeId U) (parts : List Text) :
    Option (SchemaNodeId U) := do
  some (make (← uuidAt codec parts 1) parts[4]? (← parts[2]?) (← parts[3]?))

/-- The arms of `FromStr` (`parse.rs`, lines 127–921). A script path may hold
the separator. -/
def parseKind (parts : List Text) : SchemaNodeKind → Option (SchemaNodeId U)
  | .connectionFolder => ofProfile codec .connectionFolder parts
  | .profile => ofProfile codec .profile parts
  | .databasesFolder => ofProfile codec .databasesFolder parts
  | .database => ofName codec .database parts
  | .emptyDatabasesFolder => ofProfile codec .emptyDatabasesFolder parts
  | .loading => ofName codec .loading parts
  | .schema => ofNameIn codec .schema parts
  | .tablesFolder => ofNameIn codec .tablesFolder parts
  | .viewsFolder => ofNameIn codec .viewsFolder parts
  | .typesFolder => ofNames codec .typesFolder parts
  | .typesLoadingFolder => ofNames codec .typesLoadingFolder parts
  | .schemaIndexesFolder => ofNames codec .schemaIndexesFolder parts
  | .schemaIndexesLoadingFolder => ofNames codec .schemaIndexesLoadingFolder parts
  | .schemaForeignKeysFolder => ofNames codec .schemaForeignKeysFolder parts
  | .schemaForeignKeysLoadingFolder => ofNames codec .schemaForeignKeysLoadingFolder parts
  | .routinesFolder => ofNames codec .routinesFolder parts
  | .routinesLoadingFolder => ofNames codec .routinesLoadingFolder parts
  | .collectionsFolder => ofName codec .collectionsFolder parts
  | .metricsFolder => ofName codec .metricsFolder parts
  | .metricNamespaceFolder => ofNames codec .metricNamespaceFolder parts
  | .metricLeaf => ofThreeNames codec .metricLeaf parts
  | .dashboardsFolder => ofProfile codec .dashboardsFolder parts
  | .dashboardItem => ofIds codec .dashboardItem parts
  | .remoteDashboardsFolder => ofProfile codec .remoteDashboardsFolder parts
  | .remoteDashboardItem => ofName codec .remoteDashboardItem parts
  | .savedChartsFolder => ofProfile codec .savedChartsFolder parts
  | .savedChartItem => ofIds codec .savedChartItem parts
  | .table => ofNamesIn codec .table parts
  | .view => ofNamesIn codec .view parts
  | .collection => ofNames codec .collection parts
  | .collectionChild => do
    some (.collectionChild (← uuidAt codec parts 1) (← parts[2]?) (← parts[3]?) (← parts[4]?)
      (← parts[5]?))
  | .collectionChildrenMore => ofNames codec .collectionChildrenMore parts
  | .customType => ofNames codec .customType parts
  | .columnsFolder => ofNames codec .columnsFolder parts
  | .indexesFolder => ofNames codec .indexesFolder parts
  | .foreignKeysFolder => ofNames codec .foreignKeysFolder parts
  | .constraintsFolder => ofNames codec .constraintsFolder parts
  | .storageHintsFolder => ofNames codec .storageHintsFolder parts
  | .column => ofNames codec .column parts
  | .index => ofNames codec .index parts
  | .foreignKey => ofNames codec .foreignKey parts
  | .constraint => ofNames codec .constraint parts
  | .storageHintItem => ofNames codec .storageHintItem parts
  | .schemaIndex => ofNames codec .schemaIndex parts
  | .schemaForeignKey => ofNames codec .schemaForeignKey parts
  | .routine => ofNames codec .routine parts
  | .databaseIndexesFolder => ofName codec .databaseIndexesFolder parts
  | .collectionFieldsFolder => ofNames codec .collectionFieldsFolder parts
  | .collectionField => ofNames codec .collectionField parts
  | .collectionIndexesFolder => ofNames codec .collectionIndexesFolder parts
  | .collectionIndex => ofNames codec .collectionIndex parts
  | .enumValue => ofThreeNames codec .enumValue parts
  | .baseType => ofNames codec .baseType parts
  | .placeholder => ofNames codec .placeholder parts
  | .dependentsFolder => ofNames codec .dependentsFolder parts
  | .dependentItem => ofThreeNames codec .dependentItem parts
  | .scriptsFolder => some (.scriptsFolder (if parts.length = 1 then none
    else some (join '|' (parts.drop 1))))
  | .scriptFile =>
    let path := join '|' (parts.drop 1)
    if path = [] then none else some (.scriptFile path)
  | .scriptsRoot =>
    let path := join '|' (parts.drop 1)
    if path = [] then none else some (.scriptsRoot path)
  | .instanceMetricsFolder => ofProfile codec .instanceMetricsFolder parts
  | .instanceMetricLeaf => ofName codec .instanceMetricLeaf parts
  | .instanceInspectorsFolder => ofProfile codec .instanceInspectorsFolder parts
  | .instanceInspectorLeaf => ofName codec .instanceInspectorLeaf parts
  | .instanceFolder => ofProfile codec .instanceFolder parts
  | .instanceOverviewLeaf => ofProfile codec .instanceOverviewLeaf parts
  | .bucket => ofName codec .bucket parts
  | .bucketsFolder => ofProfile codec .bucketsFolder parts
  | .secretStore => ofName codec .secretStore parts
  | .secretPath => do
    let profileId ← uuidAt codec parts 1
    let storeId ← parts[2]?
    -- A path may hold the separator.
    if parts.drop 3 = [] then none
    else some (.secretPath profileId storeId (join '|' (parts.drop 3)))

/-- `FromStr for SchemaNodeId` (`parse.rs`, lines 24–125). The error holds the
text. -/
def fromStr (s : Text) : Except Text (SchemaNodeId U) :=
  let parts := splitN '|' 6 s
  let parsed := do
    let kind ← SchemaNodeKind.ofTag (← parts[0]?)
    if parts.length < 2 ∧ kind ≠ .scriptsFolder then none else parseKind codec parts kind
  match parsed with
  | some id => .ok id
  | none => .error s

end Dbflux.Schema
