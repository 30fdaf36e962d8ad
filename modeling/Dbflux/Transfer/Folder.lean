import Dbflux.Transfer.Sources

/-!
# Export and import of a folder

`run_export` (`dbflux_transfer/src/export.rs`) runs one transfer per table from
the database into a file of the folder, and then writes `manifest.json`.
`run_import` (`import.rs`) reads the manifest and runs one transfer per plan from
the file of its manifest table into the target.

Files are known by the key of the path a name leads to (`Folder.locate`), so two
names may be one file; in messages a path is the name in the folder. What is
written into a file is left to a codec (`FileCodec`): the `csv` and `serde_json`
writers and readers and the value codec of `value_codec.rs`.
-/

namespace Dbflux.Transfer

open Lib

/-! ## Column maps (`column_map.rs`) -/

/-- `ColumnMappingOverride` (lines 25–34). -/
structure ColumnMappingOverride where
  targetColumn : Text
  sourceColumn : Option Text
  deriving DecidableEq, Repr

/-- `AutoColumnMap` (lines 7–23). -/
structure AutoColumnMap where
  targetFromSource : List (Option ℕ)
  targetColumns : List TransferColumn
  warnings : List Text
  deriving DecidableEq, Repr

/-- `auto_map` (lines 90–102). -/
def autoMap (source target : List TransferColumn) : List (Option ℕ) :=
  target.map fun column => columnIndex source column.name

/-- `unmatched_source_warnings` (lines 104–119). -/
def unmatchedSourceWarnings (source : List TransferColumn) (targetFromSource : List (Option ℕ)) :
    List Text :=
  (source.zipIdx.filter fun (_, index) => !targetFromSource.contains (some index)).map
    fun (column, _) => "source column '".toList ++ column.name ++
      "' has no matching target column and was skipped".toList

namespace AutoColumnMap

/-- `AutoColumnMap::new` (lines 37–46). -/
def new (source target : List TransferColumn) : AutoColumnMap where
  targetFromSource := autoMap source target
  targetColumns := target
  warnings := unmatchedSourceWarnings source (autoMap source target)

/-- `AutoColumnMap::with_overrides` (lines 53–87). -/
def withOverrides (source target : List TransferColumn)
    (overrides : List ColumnMappingOverride) : AutoColumnMap :=
  let targetFromSource := overrides.foldl (fun mapping entry =>
    match columnIndex target entry.targetColumn with
    | none => mapping
    | some index => mapping.set index (entry.sourceColumn.bind (columnIndex source)))
    (autoMap source target)
  ⟨targetFromSource, target, unmatchedSourceWarnings source targetFromSource⟩

/-- `AutoColumnMap::project` (lines 122–130). -/
def project {V : Type} (map : AutoColumnMap) (null : V) (row : List V) : List V :=
  map.targetFromSource.map fun
    | some index => row[index]?.getD null
    | none => null

/-- An `AutoColumnMap` as a `ColumnMap`. -/
def toColumnMap {V : Type} (map : AutoColumnMap) (null : V) : ColumnMap (List V) (List V) where
  project := map.project null
  warnings := map.warnings

end AutoColumnMap

/-! ## Files (`file_sink.rs`) -/

/-- `FileFormat` (lines 18–23). -/
inductive FileFormat where
  | csv
  | json
  deriving DecidableEq, Repr

namespace FileFormat

/-- `FileFormat::extension` (lines 29–34). -/
def extension : FileFormat → Text
  | csv => "csv".toList
  | json => "json".toList

/-- `FileFormat::from_extension` (lines 46–52). -/
def fromExtension (ext : Text) : Option FileFormat :=
  if ext = "csv".toList then some csv
  else if ext = "json".toList then some json
  else none

@[simp] theorem fromExtension_extension (format : FileFormat) :
    fromExtension format.extension = some format := by
  cases format <;> rfl

end FileFormat

/-- `ManifestTable` (`manifest.rs`, lines 43–56). -/
structure ManifestTable where
  schema : Option Text
  name : Text
  file : Text
  format : Text
  columns : List TransferColumn
  rowCount : ℕ
  fkOrderIndex : ℕ
  deriving DecidableEq, Repr

/-- `ManifestSource` (`manifest.rs`, lines 32–38). -/
structure ManifestSource where
  driver : Text
  database : Text
  schema : Option Text
  deriving DecidableEq, Repr

/-- `TransferManifest` (`manifest.rs`, lines 12–20). -/
structure TransferManifest where
  version : ℕ
  source : ManifestSource
  createdAt : Text
  tables : List ManifestTable
  deriving DecidableEq, Repr

/-- `TransferManifest::CURRENT_VERSION` (`manifest.rs`, line 29). -/
def TransferManifest.currentVersion : ℕ := 2

/-- How rows and manifests are written into files of content `C` and read again.
A row may come back changed (`reread`: an empty text of a CSV file is `NULL`). -/
structure FileCodec (V C : Type) where
  empty : C
  header : FileFormat → List TransferColumn → C → C
  append : FileFormat → List TransferColumn → C → List V → C
  read : FileFormat → List TransferColumn → C → List (Except Text (List V))
  reread : FileFormat → List TransferColumn → List V → List V
  manifest : TransferManifest → C
  readManifest : C → Except Text TransferManifest
  read_written : ∀ format columns (rows : List (List V)),
    read format columns (rows.foldl (append format columns) (header format columns empty)) =
      rows.map fun row => .ok (reread format columns row)
  append_ne : ∀ format columns content row, append format columns content row ≠ content
  readManifest_manifest : ∀ manifest', readManifest (manifest manifest') = .ok manifest'
  manifest_ne : ∀ manifest' format columns (rows : List (List V)),
    manifest manifest' ≠ rows.foldl (append format columns) (header format columns empty)

/-- The file of a table with these rows. -/
def FileCodec.content {V C : Type} (codec : FileCodec V C) (format : FileFormat)
    (columns : List TransferColumn) (rows : List (List V)) : C :=
  rows.foldl (codec.append format columns) (codec.header format columns codec.empty)

/-- The files by their keys. -/
abbrev Files (Key C : Type) := Key → Option C

/-- A folder: which file a name in it leads to, and what fails. -/
structure Folder (Key C : Type) where
  createDirAll : Except Text Unit
  locate : Text → Except Text Key
  refuse : Key → C → Option Text
  flush : Key → Option Text

section

variable {V C Key : Type} [DecidableEq Key]

/-- A write after which the file has this content. -/
def Folder.write (folder : Folder Key C) (files : Files Key C) (key : Key) (content : C) :
    Except Text Unit × Files Key C :=
  match folder.refuse key content with
  | some e => (.error e, files)
  | none => (.ok (), Function.update files key (some content))

/-- What is used of `FileSink` (lines 65–78) in an export: it has
no path of its own and writes no whole documents. -/
structure FileSink (Key : Type) where
  schema : Option Text
  table : Text
  format : FileFormat
  columns : List TransferColumn
  writer : Option Key
  rowsWritten : ℕ
  deriving DecidableEq, Repr

/-- `FileSink::new` (lines 81–98). -/
def FileSink.new (schema : Option Text) (table : Text) (format : FileFormat) : FileSink Key where
  schema := schema
  table := table
  format := format
  columns := []
  writer := none
  rowsWritten := 0

/-- `FileSink::file_name` (lines 125–130). -/
def fileName (schema : Option Text) (table : Text) (format : FileFormat) : Text :=
  match schema with
  | some schema => schema ++ '.' :: table ++ '.' :: format.extension
  | none => table ++ '.' :: format.extension

/-- The loop of `FileSink::write_chunk` (lines 211–222). -/
def writeRows (codec : FileCodec V C) (folder : Folder Key C) (format : FileFormat)
    (columns : List TransferColumn) (key : Key) :
    List (List V) → Files Key C → Except Text Unit × Files Key C
  | [], files => (.ok (), files)
  | row :: rows, files =>
    match folder.write files key
        (codec.append format columns ((files key).getD codec.empty) row) with
    | (.error e, files) => (.error e, files)
    | (.ok (), files) => writeRows codec folder format columns key rows files

/-- `FileSink` as a `RowSink` (lines 176–245), together with the
files. A file is always created anew. -/
def fileSink (codec : FileCodec V C) (folder : Folder Key C) (columns : List TransferColumn) :
    RowSink (List V) (FileSink Key × Files Key C) where
  begin := fun (sink, files) =>
    let sink := { sink with columns := columns }
    match folder.locate (fileName sink.schema sink.table sink.format) with
    | .error e => (.error (.sink e), sink, files)
    | .ok key =>
      let created := Function.update files key (some codec.empty)
      match folder.write created key (codec.header sink.format columns codec.empty) with
      | (.error e, files) => (.error (.sink e), sink, files)
      | (.ok (), files) => (.ok (), { sink with writer := some key }, files)
  writeChunk := fun (sink, files) rows =>
    match sink.writer with
    | none => (.error (.sink "write_chunk called before begin".toList), sink, files)
    | some key =>
      match writeRows codec folder sink.format sink.columns key rows files with
      | (.error e, files) => (.error (.sink e), sink, files)
      | (.ok (), files) =>
        (.ok rows.length, { sink with rowsWritten := sink.rowsWritten + rows.length }, files)
  finish := fun (sink, files) =>
    let finished := { sink with writer := none }
    match sink.writer.bind folder.flush with
    | some e => (.error (.sink e), finished, files)
    | none => (.ok ⟨sink.rowsWritten, .completed, []⟩, finished, files)

/-! ## Export (`export.rs`) -/

/-- The `Display` of `TransferError` (`pipeline.rs`, lines 12–16). -/
def TransferError.display : TransferError → Text
  | .source message => "source error: ".toList ++ message
  | .sink message => "sink error: ".toList ++ message

/-- `TableTransferStatus` (`pipeline.rs`, lines 34–54). -/
inductive TableTransferStatus where
  | completed (rows : ℕ)
  | skipped
  | failed (error : Text)
  | cancelled (rows : ℕ)
  | notStarted
  deriving DecidableEq, Repr

/-- `matches!(status, Failed { .. })` (line 184). -/
def TableTransferStatus.isFailed : TableTransferStatus → Bool
  | failed _ => true
  | _ => false

/-- `ExportTable` (lines 30–38). -/
structure ExportTable where
  schema : Option Text
  name : Text
  columns : List TransferColumn
  estimatedTotal : Option ℕ
  deriving DecidableEq, Repr

/-- `ExportOptions` (lines 40–48), with the time of the run. -/
structure ExportOptions where
  driverId : Text
  database : Text
  format : FileFormat
  segmentSize : ℕ
  now : Text
  deriving DecidableEq, Repr

/-- `ExportedTable` (lines 50–55). -/
structure ExportedTable where
  schema : Option Text
  name : Text
  status : TableTransferStatus
  deriving DecidableEq, Repr

/-- `ExportOutcome` (lines 57–69). -/
structure ExportOutcome where
  manifest : Option TransferManifest
  warnings : List Text
  tables : List ExportedTable
  cancelled : Bool
  deriving DecidableEq, Repr

/-- What the loop over the tables leaves behind. -/
structure Exported (Key C : Type) where
  entries : List ManifestTable
  warnings : List Text
  tables : List ExportedTable
  files : Files Key C
  token : CancelToken

/-- The file of a table in an export. -/
def ExportTable.file (table : ExportTable) (format : FileFormat) : Text :=
  fileName table.schema table.name format

/-- The entry of a table (lines 166–174). -/
def ExportTable.entry (table : ExportTable) (format : FileFormat) (rows index : ℕ) :
    ManifestTable where
  schema := table.schema
  name := table.name
  file := table.file format
  format := format.extension
  columns := table.columns
  rowCount := rows
  fkOrderIndex := index

/-- A table that was not reached. -/
def ExportTable.notStarted (table : ExportTable) : ExportedTable :=
  ⟨table.schema, table.name, .notStarted⟩

variable (codec : FileCodec V C) (folder : Folder Key C) (null : V)

/-- The transfer of one table (lines 104–130). -/
def exportTable (connection : Connection V) (options : ExportOptions) (fuel : ℕ)
    (table : ExportTable) (files : Files Key C) (token : CancelToken) :
    Option (Transferred (List V) (TableSource V) (FileSink Key × Files Key C)) :=
  runTransfer tableSource ((AutoColumnMap.new table.columns table.columns).toColumnMap null)
    (fileSink codec folder table.columns) fuel
    (.new connection table.schema table.name table.columns options.segmentSize table.estimatedTotal)
    (.new table.schema table.name options.format, files) token

/-- The loop of `run_export` (lines 100–172); every transfer has at
most `fuel` turns. -/
def exportLoop (connection : Connection V) (options : ExportOptions) (fuel : ℕ) :
    ℕ → List ExportTable → Files Key C → CancelToken → Option (Exported Key C)
  | _, [], files, token => some ⟨[], [], [], files, token⟩
  | index, table :: tables, files, token =>
    if token.isCancelled then
      some ⟨[], [], (table :: tables).map (·.notStarted), files, token.read⟩
    else
      match exportTable codec folder null connection options fuel table files token.read with
      | none => none
      | some run =>
        match run.result with
        | .error e =>
          some ⟨[], [], ⟨table.schema, table.name, .failed e.display⟩ :: tables.map (·.notStarted),
            run.sink.2, run.token⟩
        | .ok report =>
          let entry := table.entry options.format report.rowsTransferred index
          match report.outcome with
          | .cancelled =>
            some ⟨[entry], report.warnings,
              ⟨table.schema, table.name, .cancelled report.rowsTransferred⟩ ::
                tables.map (·.notStarted), run.sink.2, run.token⟩
          | .completed =>
            (exportLoop connection options fuel (index + 1) tables run.sink.2 run.token).map
              fun rest =>
                { rest with
                  entries := entry :: rest.entries
                  warnings := report.warnings ++ rest.warnings
                  tables := ⟨table.schema, table.name, .completed report.rowsTransferred⟩ ::
                    rest.tables }

/-- `manifest.json`. -/
def manifestName : Text := "manifest.json".toList

/-- `run_export` (lines 77–219). -/
def runExport (connection : Connection V) (tables : List ExportTable) (options : ExportOptions)
    (fuel : ℕ) (files : Files Key C) (token : CancelToken) :
    Option (Except TransferError ExportOutcome × Files Key C × CancelToken) :=
  match folder.createDirAll with
  | .error e => some (.error (.sink e), files, token)
  | .ok () =>
    (exportLoop codec folder null connection options fuel 0 tables files token).map fun exported =>
      let cancelled := exported.token.isCancelled
      let token := exported.token.read
      if cancelled || exported.tables.any (·.status.isFailed) then
        (.ok ⟨none, exported.warnings, exported.tables, cancelled⟩, exported.files, token)
      else
        let manifest : TransferManifest :=
          { version := TransferManifest.currentVersion
            source := ⟨options.driverId, options.database, tables.head?.bind (·.schema)⟩
            createdAt := options.now
            tables := exported.entries }
        match folder.locate manifestName with
        | .error e => (.error (.sink e), exported.files, token)
        | .ok key =>
          match folder.write exported.files key (codec.manifest manifest) with
          | (.error e, files) => (.error (.sink e), files, token)
          | (.ok (), files) =>
            (.ok ⟨some manifest, exported.warnings, exported.tables, cancelled⟩, files, token)

/-! ## Import (`import.rs`) -/

/-- `ImportTablePlan` (lines 37–47). -/
structure ImportTablePlan where
  sourceTable : Text
  targetSchema : Option Text
  targetTable : Text
  mappingMode : TableMappingMode
  columnOverrides : Option (List ColumnMappingOverride)
  deriving DecidableEq, Repr

/-- `ImportOptions` (lines 49–59). -/
structure ImportOptions where
  segmentSize : ℕ
  targetDatabase : Text
  destructiveConfirmed : Bool
  deriving DecidableEq, Repr

/-- `ImportedTable` (lines 61–66). -/
structure ImportedTable where
  sourceTable : Text
  targetTable : Text
  status : TableTransferStatus
  deriving DecidableEq, Repr

/-- The target of an import with states `τ`: `Connection::table_details`, and the
`TableSink` of a table, which finishes with `Completed` (`table_sink.rs`,
lines 349–366). -/
structure Target (V τ : Type) where
  tableDetails : τ → Text → Option Text → Text → Except Text (List TransferColumn)
  sink : Option Text → Text → TableMappingMode → List TransferColumn → RowSink (List V) τ
  finish_completed : ∀ {schema table mode columns state report state'},
    (sink schema table mode columns).finish state = (.ok report, state') →
      report.outcome = .completed

/-- A target that accepts every row. -/
def acceptingTarget : Target V Unit where
  tableDetails := fun _ _ _ _ => .ok []
  sink := fun _ _ _ _ =>
    { begin := fun state => (.ok (), state)
      writeChunk := fun state rows => (.ok rows.length, state)
      finish := fun state => (.ok ⟨0, .completed, []⟩, state) }
  finish_completed := by
    intro _ _ _ _ _ report _ h
    obtain rfl := Except.ok.inj (Prod.mk.inj h).1
    rfl

/-- What was loaded for a plan: the columns of its target, and the rows handed to
its sink. -/
structure Loaded (V : Type) where
  targetColumns : List TransferColumn
  rows : List (List V)

/-- `ImportOutcome` (lines 68–75), with what was loaded for each plan
that was started. -/
structure ImportOutcome (V : Type) where
  tables : List ImportedTable
  warnings : List Text
  cancelled : Bool
  loaded : List (Loaded V)

variable {τ : Type} (target : Target V τ)

/-- `resolve_target_columns` (lines 258–272). -/
def resolveTargetColumns (options : ImportOptions) (plan : ImportTablePlan)
    (manifestColumns : List TransferColumn) (state : τ) :
    Except TransferError (List TransferColumn) :=
  let query := target.tableDetails state options.targetDatabase plan.targetSchema plan.targetTable
  match plan.mappingMode with
  | .create | .recreate => .ok manifestColumns
  | .existing | .truncate => query.mapError .sink
  | .skip =>
    match query with
    | .ok columns => .ok columns
    | .error _ => .ok manifestColumns

/-- The column map of a plan (lines 223–230). -/
def ImportTablePlan.columnMap (plan : ImportTablePlan) (source target : List TransferColumn) :
    AutoColumnMap :=
  match plan.columnOverrides with
  | some overrides => .withOverrides source target overrides
  | none => .new source target

/-- `import_one_table` (lines 191–247): the result, what was loaded,
the target and the token. -/
def importOneTable (options : ImportOptions) (fuel : ℕ) (files : Files Key C)
    (entry : ManifestTable) (plan : ImportTablePlan) (state : τ) (token : CancelToken) :
    Option (Except TransferError TransferReport × Loaded V × τ × CancelToken) :=
  match FileFormat.fromExtension entry.format with
  | none =>
    some (.error (.source ("manifest table '".toList ++ entry.name ++
      "' has unknown format '".toList ++ entry.format ++ "'".toList)), ⟨[], []⟩, state, token)
  | some format =>
    match folder.locate entry.file with
    | .error e => some (.error (.source e), ⟨[], []⟩, state, token)
    | .ok key =>
      match files key with
      | none => some (.error (.source entry.file), ⟨[], []⟩, state, token)
      | some content =>
        match resolveTargetColumns target options plan entry.columns state with
        | .error e => some (.error e, ⟨[], []⟩, state, token)
        | .ok columns =>
          (runTransfer fileSource ((plan.columnMap entry.columns columns).toColumnMap null)
            (target.sink plan.targetSchema plan.targetTable plan.mappingMode columns) fuel
            (.ofRecords (codec.read format entry.columns content) options.segmentSize
              (some entry.rowCount)) state token).map fun run =>
            (run.result, ⟨columns, run.chunks.flatten⟩, run.sink, run.token)

/-- What the loop over the plans leaves behind. -/
structure Imported (V τ : Type) where
  tables : List ImportedTable
  warnings : List Text
  loaded : List (Loaded V)
  state : τ
  token : CancelToken

/-- A plan that was not reached. -/
def ImportTablePlan.notStarted (plan : ImportTablePlan) : ImportedTable :=
  ⟨plan.sourceTable, plan.targetTable, .notStarted⟩

/-- The status of a plan whose transfer returned (lines 165–177). -/
def ImportTablePlan.status (plan : ImportTablePlan) (report : TransferReport) :
    TableTransferStatus :=
  if plan.mappingMode = .skip then .skipped
  else if report.outcome = .cancelled then .cancelled report.rowsTransferred
  else .completed report.rowsTransferred

/-- The loop of `run_import` (lines 114–182). -/
def importLoop (options : ImportOptions) (fuel : ℕ) (files : Files Key C)
    (entries : List ManifestTable) :
    List ImportTablePlan → τ → CancelToken → Option (Imported V τ)
  | [], state, token => some ⟨[], [], [], state, token⟩
  | plan :: plans, state, token =>
    if token.isCancelled then
      some ⟨(plan :: plans).map (·.notStarted), [], [], state, token.read⟩
    else
      let failed (error : Text) : List ImportedTable :=
        ⟨plan.sourceTable, plan.targetTable, .failed error⟩ :: plans.map (·.notStarted)
      match entries.find? (·.name = plan.sourceTable) with
      | none =>
        some ⟨failed ("manifest has no table named '".toList ++ plan.sourceTable ++ "'".toList),
          [], [], state, token.read⟩
      | some entry =>
        match importOneTable codec folder null target options fuel files entry plan state
            token.read with
        | none => none
        | some (.error e, loaded, state, token) => some ⟨failed e.display, [], [loaded], state, token⟩
        | some (.ok report, loaded, state, token) =>
          let imported : ImportedTable := ⟨plan.sourceTable, plan.targetTable, plan.status report⟩
          match report.outcome with
          | .cancelled =>
            some ⟨imported :: plans.map (·.notStarted), report.warnings, [loaded], state, token⟩
          | .completed =>
            (importLoop options fuel files entries plans state token).map fun rest =>
              { rest with
                tables := imported :: rest.tables
                warnings := report.warnings ++ rest.warnings
                loaded := loaded :: rest.loaded }

/-- `read_manifest` (`manifest.rs`, lines 65–82). -/
def readManifest (files : Files Key C) : Except TransferError TransferManifest :=
  match folder.locate manifestName with
  | .error e => .error (.source e)
  | .ok key =>
    match files key with
    | none => .error (.source manifestName)
    | some content =>
      match codec.readManifest content with
      | .error e => .error (.source e)
      | .ok manifest =>
        if manifest.version = TransferManifest.currentVersion then .ok manifest
        else .error (.source (manifestName ++ ": unsupported manifest version ".toList ++
          (toString manifest.version).toList ++ " (this build reads version ".toList ++
          (toString TransferManifest.currentVersion).toList ++ ")".toList))

/-- `has_destructive_plan` (lines 92–97). -/
def ImportTablePlan.isDestructive (plan : ImportTablePlan) : Bool :=
  match plan.mappingMode with
  | .recreate | .truncate => true
  | _ => false

/-- `run_import` (lines 82–189). -/
def runImport (options : ImportOptions) (fuel : ℕ) (files : Files Key C)
    (plans : List ImportTablePlan) (state : τ) (token : CancelToken) :
    Option (Except TransferError (ImportOutcome V) × τ × CancelToken) :=
  match readManifest codec folder files with
  | .error e => some (.error e, state, token)
  | .ok manifest =>
    if plans.any (·.isDestructive) && !options.destructiveConfirmed then
      some (.error (.sink ("import includes a Recreate or Truncate table and was not ".toList ++
        "confirmed".toList)), state, token)
    else
      (importLoop codec folder null target options fuel files manifest.tables plans state
        token).map fun imported =>
        (.ok ⟨imported.tables, imported.warnings, imported.token.isCancelled, imported.loaded⟩,
          imported.state, imported.token.read)

end

end Dbflux.Transfer
