import Dbflux.Transfer.FolderExport

/-!
# What an import loads

An import finds the manifest table of a plan by its bare name and reads the file
of the first one.

Results:
* `runImport_spec`: what an import that is neither cancelled nor failed has
  loaded for each plan.
* `runImport_ok`: an import into a target that accepts everything.
-/

namespace Dbflux.Transfer

open Lib
open TableTransferStatus (isFailed)

variable {V C Key : Type}

/-! ## The source of a file -/

variable {R : Type}

theorem readsToken_fileSource : ReadsToken (fileSource : RowSource R (FileSource R)) := by
  intro source token
  unfold fileSource
  dsimp only
  split_ifs
  · exact .inr rfl
  · split
    all_goals exact .inr rfl

theorem holds_ofRecords (rows : List R) (segmentSize : ℕ) (total : Option ℕ) :
    (FileSource.ofRecords (rows.map .ok) segmentSize total).Holds (max segmentSize 1) rows := by
  refine ⟨rfl, List.forall₂_map_left_iff.mpr ?_⟩
  exact List.forall₂_same.mpr fun row _ r hr => (Except.ok.inj hr).symm

/-! ## One plan -/

variable {codec : FileCodec V C} {folder : Folder Key C} {null : V} {τ : Type}
  {target : Target V τ} {options : ImportOptions} {format : FileFormat}

/-- Rows of a table as a plan loads them. -/
def rowsFor (null : V) (plan : ImportTablePlan) (columns targetColumns : List TransferColumn)
    (rows : List (List V)) : List (List V) :=
  rows.map ((plan.columnMap columns targetColumns).project null)

variable {fuel index : ℕ} {files : Files Key C} {table : ExportTable} {state state' : τ}
variable {token token' : CancelToken} {key : Key}

theorem read_content (columns : List TransferColumn) (rows : List (List V)) :
    codec.read format columns (codec.content format columns rows) =
      (rows.map (codec.reread format columns)).map .ok := by
  rw [List.map_map]
  exact codec.read_written format columns rows

/-- A plan loads the rows of the file of its manifest table. -/
theorem importOneTable_spec {rows : List (List V)} {count : ℕ} {plan : ImportTablePlan}
    {report : TransferReport} {loaded : Loaded V}
    (hkey : folder.locate (table.file format) = .ok key)
    (hfile : files key = some (codec.content format table.columns rows))
    (h : importOneTable codec folder null target options fuel files
      (table.entry format count index) plan state token = some (.ok report, loaded, state', token'))
    (hunset : token'.isCancelled = false) :
    loaded.rows = rowsFor null plan table.columns loaded.targetColumns
        (rows.map (codec.reread format table.columns)) ∧
      report.outcome = .completed := by
  unfold importOneTable at h
  simp only [ExportTable.entry, FileFormat.fromExtension_extension, hkey, hfile] at h
  split at h
  · simp at h
  next columns hcolumns =>
  obtain ⟨run, hrun, h⟩ := Option.map_eq_some_iff.mp h
  simp only [Prod.mk.injEq] at h
  obtain ⟨hresult, rfl, rfl, rfl⟩ := h
  rw [read_content] at hrun
  have hsegment : 0 < max options.segmentSize 1 := by omega
  obtain ⟨hchunks, _, _, own, -, -, hfinish, rfl⟩ :=
    uncancelled_run (fileSource_delivers hsegment)
      (holds_ofRecords _ options.segmentSize (some count)) hrun hresult hunset
  have hcompleted : own.outcome = .completed := target.finish_completed hfinish
  refine ⟨?_, hcompleted⟩
  exact hchunks

/-! ## All plans -/

variable {rows : ExportTable → List (List V)} {tables : List ExportTable} {entry : ManifestTable}

theorem find_entriesOf {name : Text}
    (h : (entriesOf format rows index tables).find? (·.name = name) = some entry) :
    ∃ table i, tables.find? (·.name = name) = some table ∧
      entry = table.entry format (rows table).length i := by
  induction tables generalizing index with
  | nil => cases h
  | cons table tables ih =>
    by_cases hname : table.name = name
    · refine ⟨table, index, by simp [hname], ?_⟩
      simpa [entriesOf, ExportTable.entry, hname] using h.symm
    · have hrest : (entriesOf format rows (index + 1) tables).find? (·.name = name) = some entry := by
        simpa [entriesOf, ExportTable.entry, hname] using h
      obtain ⟨table', i, hfind, hentry⟩ := ih hrest
      exact ⟨table', i, by simpa [hname] using hfind, hentry⟩

theorem later_importOneTable {plan : ImportTablePlan} {result : Except TransferError TransferReport}
    {loaded : Loaded V}
    (h : importOneTable codec folder null target options fuel files entry plan state token =
      some (result, loaded, state', token')) : token.Later token' := by
  unfold importOneTable at h
  -- a plan that is refused leaves the token
  iterate 4
    split at h
    · simp only [Option.some.injEq, Prod.mk.injEq] at h
      exact h.2.2.2 ▸ .refl _
  obtain ⟨run, hrun, h⟩ := Option.map_eq_some_iff.mp h
  simp only [Prod.mk.injEq] at h
  exact h.2.2.2 ▸ later_runTransfer readsToken_fileSource hrun

variable {plans : List ImportTablePlan} {imported : Imported V τ}

theorem later_importLoop {entries : List ManifestTable}
    (h : importLoop codec folder null target options fuel files entries plans state token =
      some imported) : token.Later imported.token := by
  induction plans generalizing state token imported with
  | nil =>
    cases h
    exact .refl _
  | cons plan plans ih =>
    rw [importLoop] at h
    split at h
    · cases h
      exact token.later_read
    split at h
    · cases h
      exact token.later_read
    split at h
    · cases h
    next hone =>
      cases h
      exact token.later_read.trans (later_importOneTable hone)
    next hone =>
      have hlater := token.later_read.trans (later_importOneTable hone)
      split at h
      · cases h
        exact hlater
      · obtain ⟨rest, hrest, rfl⟩ := Option.map_eq_some_iff.mp h
        have hnext : CancelToken.Later _ rest.token := ih hrest
        exact hlater.trans hnext

/-- The files of the tables have their rows. -/
def FilesHold (codec : FileCodec V C) (locate : Text → Except Text Key) (format : FileFormat)
    (rows : ExportTable → List (List V)) (tables : List ExportTable) (files : Files Key C) :
    Prop :=
  ∀ table ∈ tables, ∃ key, locate (table.file format) = .ok key ∧
    files key = some (codec.content format table.columns (rows table))

/-- The rows of the first table of a plan's name are loaded for it. -/
def LoadsFirst (codec : FileCodec V C) (null : V) (format : FileFormat)
    (rows : ExportTable → List (List V)) (tables : List ExportTable) (plan : ImportTablePlan)
    (loaded : Loaded V) : Prop :=
  ∃ table, tables.find? (·.name = plan.sourceTable) = some table ∧
    loaded.rows = rowsFor null plan table.columns loaded.targetColumns
      ((rows table).map (codec.reread format table.columns))

variable (hfiles : FilesHold codec folder.locate format rows tables files)

include hfiles

/-- A loop that ends with the token unset and no failed plan has loaded, for each
plan, the rows of the first table of its name. -/
theorem importLoop_spec
    (h : importLoop codec folder null target options fuel files (entriesOf format rows 0 tables)
      plans state token = some imported) (hunset : imported.token.isCancelled = false)
    (hfailed : imported.tables.any (·.status.isFailed) = false) :
    List.Forall₂ (LoadsFirst codec null format rows tables) plans imported.loaded := by
  induction plans generalizing state token imported with
  | nil =>
    cases h
    exact .nil
  | cons plan plans ih =>
    have hlater := later_importLoop h
    rw [importLoop, if_neg (by simp [hlater.not_isCancelled hunset])] at h
    split at h
    · cases h
      simp [isFailed] at hfailed
    next entry hfind =>
    obtain ⟨table, i, htable, rfl⟩ := find_entriesOf hfind
    obtain ⟨key, hkey, hfile⟩ := hfiles table (List.mem_of_find?_eq_some htable)
    split at h
    · cases h
    · cases h
      simp [isFailed] at hfailed
    next hone =>
    split at h
    next hcancelled =>
      cases h
      obtain ⟨-, hcompleted⟩ := importOneTable_spec hkey hfile hone hunset
      rw [hcancelled] at hcompleted
      cases hcompleted
    next =>
      obtain ⟨rest, hrest, rfl⟩ := Option.map_eq_some_iff.mp h
      have hone_unset := (later_importLoop hrest).not_isCancelled hunset
      obtain ⟨hloaded, -⟩ := importOneTable_spec hkey hfile hone hone_unset
      refine .cons ⟨table, htable, hloaded⟩ (ih hrest hunset ?_)
      simp only [List.any_cons, Bool.or_eq_false_iff] at hfailed
      exact hfailed.2

variable {manifest : TransferManifest}

omit hfiles in
theorem readManifest_ok (hkey : folder.locate manifestName = .ok key)
    (hfile : files key = some (codec.manifest manifest))
    (hversion : manifest.version = TransferManifest.currentVersion) :
    readManifest codec folder files = .ok manifest := by
  simp [readManifest, hkey, hfile, codec.readManifest_manifest, hversion]

/-- **What an import loads.** An import that is neither cancelled nor failed has
loaded, for each plan, the rows of the first table of its name. -/
theorem runImport_spec {outcome : ImportOutcome V}
    (hmanifest : readManifest codec folder files = .ok manifest)
    (htables : manifest.tables = entriesOf format rows 0 tables)
    (h : runImport codec folder null target options fuel files plans state token =
      some (.ok outcome, state', token')) (hcancelled : outcome.cancelled = false)
    (hfailed : outcome.tables.any (·.status.isFailed) = false) :
    List.Forall₂ (LoadsFirst codec null format rows tables) plans outcome.loaded := by
  simp only [runImport, hmanifest, htables] at h
  split at h
  · simp at h
  obtain ⟨imported, hloop, h⟩ := Option.map_eq_some_iff.mp h
  obtain ⟨rfl, -⟩ := h
  exact importLoop_spec hfiles hloop hcancelled hfailed

/-! ## Imports that cannot fail -/

omit hfiles

/-- The plan that creates a table again. -/
def ExportTable.plan (table : ExportTable) : ImportTablePlan :=
  ⟨table.name, table.schema, table.name, .create, none⟩

theorem readChunk_map_ok (n : ℕ) (rows : List R) :
    readChunk n (rows.map .ok) = .ok (rows.take n, (rows.drop n).map .ok) := by
  induction n generalizing rows with
  | zero => rfl
  | succ n ih =>
    cases rows with
    | nil => rfl
    | cons row rows => simp [readChunk, ih]

/-- The records of the source can be read. -/
def FileSource.Readable {R : Type} (source : FileSource R) : Prop :=
  ∃ rows : List R, source.records = rows.map .ok

theorem readable_nextChunk {source source' : FileSource R}
    {answer : Except TransferError (Option (List R))}
    (h : fileSource.nextChunk source token = (answer, source', token')) (hsource : source.Readable)
    : source'.Readable := by
  obtain ⟨rows, hrows⟩ := hsource
  simp only [fileSource, hrows, readChunk_map_ok] at h
  split_ifs at h
  · simp only [Prod.mk.injEq] at h
    obtain ⟨-, rfl, -⟩ := h
    exact ⟨rows, hrows⟩
  · cases htake : rows.take source.segmentSize with
    | nil | cons =>
      simp only [htake, Prod.mk.injEq] at h
      obtain ⟨-, rfl, -⟩ := h
      exact ⟨_, rfl⟩

theorem answers_fileSource {I : FileSource R → List R → Prop} :
    Answers fileSource fun source rest => source.Readable ∧ I source rest := by
  rintro source rest token ⟨⟨rows, hrows⟩, -⟩
  simp only [fileSource, hrows, readChunk_map_ok]
  split_ifs
  · exact ⟨_, _, _, rfl⟩
  · cases rows.take source.segmentSize with
    | nil | cons => exact ⟨_, _, _, rfl⟩

variable (null options index token) in
theorem importOneTable_ok {rows : List (List V)} (count : ℕ) (plan : ImportTablePlan)
    (hplan : plan.mappingMode = .create) (hkey : folder.locate (table.file format) = .ok key)
    (hfile : files key = some (codec.content format table.columns rows))
    (hfuel : rows.length < fuel) :
    ∃ report loaded token', importOneTable codec folder null acceptingTarget options fuel files
      (table.entry format count index) plan () token = some (.ok report, loaded, (), token') := by
  have hsegment : 0 < max options.segmentSize 1 := by omega
  have hdelivers : Delivers fileSource (max options.segmentSize 1) fun source rest =>
      source.Readable ∧ FileSource.Holds (R := List V) (max options.segmentSize 1) source rest :=
    (fileSource_delivers hsegment).and readable_nextChunk
  have haccepts : Accepts (acceptingTarget.sink plan.targetSchema plan.targetTable .create
      table.columns : RowSink (List V) Unit) fun _ => True :=
    ⟨fun rows _ => ⟨_, _, rfl, trivial⟩, fun _ => ⟨_, _, rfl⟩⟩
  obtain ⟨run, report, hrun, hresult⟩ : ∃ run report, runTransfer fileSource
      ((plan.columnMap table.columns table.columns).toColumnMap null)
      (acceptingTarget.sink plan.targetSchema plan.targetTable .create table.columns) fuel
      (.ofRecords ((rows.map (codec.reread format table.columns)).map .ok) options.segmentSize
        (some count)) () token = some run ∧ run.result = .ok report :=
    run_ok hdelivers answers_fileSource haccepts hsegment token
      ⟨⟨_, rfl⟩, holds_ofRecords _ options.segmentSize (some count)⟩ rfl trivial
      (by simpa using hfuel)
  refine ⟨report, ⟨table.columns, run.chunks.flatten⟩, run.token, ?_⟩
  simp only [importOneTable, ExportTable.entry, FileFormat.fromExtension_extension, hkey, hfile,
    resolveTargetColumns, hplan, read_content, hrun, Option.map_some, hresult]

include hfiles

variable (null options token) in
theorem importLoop_ok {plans : List ExportTable} (hplans : ∀ table ∈ plans, table ∈ tables)
    (hfuel : ∀ table ∈ tables, (rows table).length < fuel) (htoken : token.moment = none) :
    ∃ imported, importLoop codec folder null acceptingTarget options fuel files
        (entriesOf format rows 0 tables) (plans.map (·.plan)) () token = some imported ∧
      imported.token.isCancelled = false ∧
      imported.tables.any (·.status.isFailed) = false := by
  induction plans generalizing token with
  | nil => exact ⟨_, rfl, CancelToken.isCancelled_of_moment_none htoken, rfl⟩
  | cons plan plans ih =>
    obtain ⟨hplan, hplans⟩ := List.forall_mem_cons.mp hplans
    obtain ⟨entry, hentry⟩ : ∃ entry,
        (entriesOf format rows 0 tables).find? (·.name = plan.plan.sourceTable) = some entry := by
      rw [← Option.isSome_iff_exists, List.find?_isSome]
      obtain ⟨i, hi, rfl⟩ := List.mem_iff_getElem.mp hplan
      have hmem : (tables[i], i) ∈ tables.zipIdx := by simp [List.mem_zipIdx_iff_getElem?]
      exact ⟨_, List.mem_map_of_mem hmem, by simp [ExportTable.entry, ExportTable.plan]⟩
    obtain ⟨table, i, hfind, rfl⟩ := find_entriesOf hentry
    have htable := List.mem_of_find?_eq_some hfind
    obtain ⟨key, hkey, hfile⟩ := hfiles table htable
    obtain ⟨report, loaded, token', hone⟩ := importOneTable_ok null options i token.read
      (rows table).length plan.plan rfl hkey hfile (hfuel table htable)
    have hmoment : token'.moment = none := (later_importOneTable hone).1.trans htoken
    obtain ⟨-, hcompleted⟩ := importOneTable_spec hkey hfile hone
      (CancelToken.isCancelled_of_moment_none hmoment)
    obtain ⟨rest, hrest, hunset, hfailed⟩ := ih token' hplans hmoment
    simp only [List.map_cons, importLoop, CancelToken.isCancelled_of_moment_none htoken, hentry,
      hone, hcompleted, hrest, Option.map_some, Bool.false_eq_true, if_false]
    refine ⟨_, rfl, hunset, ?_⟩
    simpa [ImportTablePlan.status, ExportTable.plan, hcompleted, isFailed]
      using hfailed

variable (null options fuel token) in
/-- **Imports that cannot fail.** Plans that create their tables again in a target
that accepts every row, with a token that is never set, load them all. -/
theorem runImport_ok
    (hmanifest : readManifest codec folder files = .ok manifest)
    (htables : manifest.tables = entriesOf format rows 0 tables)
    (hfuel : ∀ table ∈ tables, (rows table).length < fuel) (htoken : token.moment = none) :
    ∃ outcome token', runImport codec folder null acceptingTarget options fuel files
        (tables.map (·.plan)) () token = some (.ok outcome, (), token') ∧
      outcome.cancelled = false ∧ outcome.tables.any (·.status.isFailed) = false := by
  have hgentle : (tables.map (·.plan)).any (·.isDestructive) = false := by
    simp [ExportTable.plan, ImportTablePlan.isDestructive]
  obtain ⟨imported, hloop, hunset, hfailed⟩ :=
    importLoop_ok null options token hfiles (fun _ htable => htable) hfuel htoken
  simp only [runImport, hmanifest, htables, hgentle, Bool.false_and,
    Bool.false_eq_true, if_false, hloop, Option.map_some]
  exact ⟨_, _, rfl, hunset, hfailed⟩

end Dbflux.Transfer
