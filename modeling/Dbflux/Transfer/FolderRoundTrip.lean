import Dbflux.Transfer.FolderExport
import Dbflux.Transfer.FolderImport

/-!
# Export and import again

The file of a table is its schema, name and extension joined by dots, a later
table replaces a file that is already there, and an import finds its manifest
table by the bare name. So tables come back, whatever rows they have, exactly if
no two tables share a file or a name, no file is the manifest, and the format
itself gives each of the rows back as it was.

Results:
* `putsBack_iff`: the tables for which every export can be imported again.
* `names_joined_by_dot`: two tables that share a file, two that share a name, and
  an empty text that a CSV file gives back as `NULL`.
-/

namespace Dbflux.Transfer

open Lib List

variable {V C Key : Type}

/-! ## Files and entries -/

/-- The entries of a manifest name files that hold the rows of their tables, and from
which these rows are read. -/
def EntriesHold (codec : FileCodec V C) (locate : Text → Except Text Key) (format : FileFormat)
    (rows : ExportTable → List (List V)) (files : Files Key C) :
    List ExportTable → List ManifestTable → Prop :=
  List.Forall₂ fun table entry => entry.schema = table.schema ∧ entry.name = table.name ∧
    ∃ key, locate entry.file = .ok key ∧
      files key = some (codec.content format table.columns (rows table)) ∧
      codec.read format table.columns (codec.content format table.columns (rows table)) =
        (rows table).map .ok

/-- The format gives every row back that the tables may have. -/
def Kept (codec : FileCodec V C) (format : FileFormat) (tables : List ExportTable)
    (Row : ExportTable → List V → Prop) : Prop :=
  ∀ table ∈ tables, ∀ row, Row table row → row.length = table.columns.length →
    codec.reread format table.columns row = row

/-- Every file can be created. -/
def Creatable (locate : Text → Except Text Key) (format : FileFormat)
    (tables : List ExportTable) : Prop :=
  (∀ table ∈ tables, ∃ key, locate (table.file format) = .ok key) ∧
    ∃ key, locate manifestName = .ok key

/-- No two tables share a file or a name, and no file is the manifest. -/
structure Separate (locate : Text → Except Text Key) (format : FileFormat)
    (tables : List ExportTable) : Prop where
  files : tables.Pairwise fun a b => locate (a.file format) ≠ locate (b.file format)
  manifest : ∀ table ∈ tables, locate (table.file format) ≠ locate manifestName
  names : tables.Pairwise fun a b => a.name ≠ b.name

variable {codec : FileCodec V C} {locate : Text → Except Text Key} {null : V}
  {Row : ExportTable → List V → Prop}
  {format : FileFormat} {tables : List ExportTable}
  {rows : ExportTable → List (List V)} {table : ExportTable}

/-- The rows come back from a file exactly if the format gives each of them back. -/
theorem read_content_iff {columns : List TransferColumn} {rows : List (List V)} :
    codec.read format columns (codec.content format columns rows) = rows.map .ok ↔
      rows.map (codec.reread format columns) = rows := by
  rw [read_content]
  exact (map_injective_iff.mpr fun _ _ h => Except.ok.inj h).eq_iff

theorem entriesHold_entriesOf {files : Files Key C} (index : ℕ) :
    EntriesHold codec locate format rows files tables (entriesOf format rows index tables) ↔
      FilesHold codec locate format rows tables files ∧
        ∀ table ∈ tables, (rows table).map (codec.reread format table.columns) = rows table := by
  induction tables generalizing index with
  | nil => exact iff_of_true .nil (by simp [FilesHold])
  | cons table tables ih =>
    have hcons : EntriesHold codec locate format rows files (table :: tables)
        (entriesOf format rows index (table :: tables)) ↔
        (∃ key, locate (table.file format) = .ok key ∧
          files key = some (codec.content format table.columns (rows table)) ∧
          (rows table).map (codec.reread format table.columns) = rows table) ∧
        EntriesHold codec locate format rows files tables
          (entriesOf format rows (index + 1) tables) := by
      simp [EntriesHold, entriesOf, ExportTable.entry, read_content_iff]
    rw [hcons, ih, FilesHold, FilesHold, forall_mem_cons, forall_mem_cons, and_and_and_comm]
    simp only [← and_assoc, exists_and_right]

/-- The first element with a key that no two share. -/
theorem find_key {K : Type} [DecidableEq K] {key : ExportTable → K}
    (hkeys : tables.Pairwise fun a b => key a ≠ key b) (htable : table ∈ tables) :
    tables.find? (fun other => key other = key table) = some table := by
  induction tables with
  | nil => cases htable
  | cons head tables ih =>
    obtain ⟨hhead, htail⟩ := pairwise_cons.mp hkeys
    rcases mem_cons.mp htable with rfl | htable
    · simp
    · rw [find?_cons_of_neg (by simpa using hhead table htable)]
      exact ih htail htable

/-- A row of the right length has a value of the key column. -/
theorem isSome_keyValue {columns : List TransferColumn} {key : Text} {row : List V}
    (hkey : singlePrimaryKeyColumn columns = some key) (hrow : row.length = columns.length) :
    (keyValue columns key row).isSome := by
  obtain ⟨column, hcolumn, rfl⟩ : ∃ column ∈ columns, column.name = key := by
    unfold singlePrimaryKeyColumn at hkey
    split at hkey
    next column hfilter =>
      have hmem : column ∈ columns.filter (·.isPrimaryKey) := by rw [hfilter]; simp
      exact ⟨column, (mem_filter.mp hmem).1, Option.some.inj hkey⟩
    next => cases hkey
  have hindex : (columnIndex columns column.name).isSome := by
    rw [columnIndex, findIdx?_isSome, any_eq_true]
    exact ⟨column, hcolumn, by simp⟩
  obtain ⟨index, hindex⟩ := Option.isSome_iff_exists.mp hindex
  obtain ⟨hlt, -⟩ := findIdx?_eq_some_iff_getElem.mp hindex
  rw [keyValue, hindex, Option.bind_some, getElem?_eq_getElem (by omega)]
  rfl

/-- The given table has this row, and the others are empty. -/
def oneRow (table : ExportTable) (row : List V) : ExportTable → List (List V) :=
  fun table' => if table' = table then [row] else []

theorem oneRow_length (table : ExportTable) (row : List V) (table' : ExportTable) :
    (oneRow table row table').length ≤ 1 := by
  unfold oneRow
  split <;> simp

/-- At most one row in each table, each of which the table may have. -/
structure FewRows (Row : ExportTable → List V → Prop) (rows : ExportTable → List (List V)) :
    Prop where
  one : ∀ table, (rows table).length ≤ 1
  arity : ∀ table, ∀ row ∈ rows table, row.length = table.columns.length
  all : ∀ table, ∀ row ∈ rows table, Row table row

theorem fewRows_oneRow {row : List V} (hrow : Row table row)
    (harity : row.length = table.columns.length) : FewRows Row (oneRow table row) where
  one := oneRow_length table row
  arity := by
    intro table' row' hmem
    unfold oneRow at hmem
    split at hmem
    next h => rw [h, mem_singleton.mp hmem, harity]
    next => cases hmem
  all := by
    intro table' row' hmem
    unfold oneRow at hmem
    split at hmem
    next h => rwa [h, mem_singleton.mp hmem]
    next => cases hmem

section

variable [DecidableEq Key]

theorem filesHold_of_separate (hseparate : Separate locate format tables)
    (hcreatable : ∀ table ∈ tables, ∃ key, locate (table.file format) = .ok key)
    (rows : ExportTable → List (List V)) (files : Files Key C) {key : Key}
    (hkey : locate manifestName = .ok key) (content : Option C) :
    FilesHold codec locate format rows tables
      (Function.update (writtenFiles codec locate format rows tables files) key content) := by
  intro table htable
  obtain ⟨key', hkey'⟩ := hcreatable table htable
  have hne : key' ≠ key := by
    rintro rfl
    exact hseparate.manifest table htable (hkey'.trans hkey.symm)
  refine ⟨key', hkey', ?_⟩
  rw [Function.update_of_ne hne]
  exact writtenFiles_of_mem hseparate.files htable hkey' files

/-! ## Statement -/

variable [Preorder V] [DecidableLT V]

/-- An import with one plan per table that is neither cancelled nor failed loads
for each plan the rows of its table. -/
def ImportsBack (codec : FileCodec V C) (folder : Folder Key C) (null : V)
    (rows : ExportTable → List (List V)) (tables : List ExportTable) (files : Files Key C) :
    Prop :=
  ∀ (τ : Type) (target : Target V τ) (plans : List (ImportTablePlan × ExportTable))
    (options : ImportOptions) (fuel : ℕ) (state state' : τ) (token token' : CancelToken)
    (imported : ImportOutcome V),
    (plans.map (·.2)).Perm tables → (∀ plan ∈ plans, plan.1.sourceTable = plan.2.name) →
    runImport codec folder null target options fuel files (plans.map (·.1)) state token =
      some (.ok imported, state', token') →
    imported.cancelled = false → imported.tables.any (·.status.isFailed) = false →
    List.Forall₂ (fun plan loaded => loaded.rows =
      rowsFor null plan.1 plan.2.columns loaded.targetColumns (rows plan.2)) plans imported.loaded

/-- Whatever rows of the given kind the tables have, every export of them that writes
its manifest can be imported again: each entry names a file with the rows of its
table, and imports load the rows of each table for its own plan. -/
def PutsBack (codec : FileCodec V C) (locate : Text → Except Text Key) (null : V)
    (format : FileFormat) (Row : ExportTable → List V → Prop) (tables : List ExportTable) : Prop :=
  ∀ (connection : Connection V) (rows : ExportTable → List (List V)) (folder : Folder Key C)
    (options : ExportOptions) (fuel : ℕ) (files files' : Files Key C) (token token' : CancelToken)
    (outcome : ExportOutcome) (manifest : TransferManifest),
    (∀ table ∈ tables, TableOf connection options.segmentSize table (rows table)) →
    (∀ table ∈ tables, ∀ row ∈ rows table, Row table row) → folder.locate = locate →
    options.format = format →
    runExport codec folder null connection tables options fuel files token =
      some (.ok outcome, files', token') →
    outcome.manifest = some manifest →
    EntriesHold codec locate format rows files' tables manifest.tables ∧
      ImportsBack codec folder null rows tables files'

/-! ## Separate tables come back -/

theorem putsBack_of_separate (h : Creatable locate format tables →
      Separate locate format tables ∧ Kept codec format tables Row) :
    PutsBack codec locate null format Row tables := by
  rintro connection rows folder options fuel files files' token token' outcome manifest htables
    hrows rfl rfl hexport hmanifest
  obtain ⟨hkeys, hversion, hentries, key, hkey, rfl⟩ := runExport_spec htables hexport hmanifest
  obtain ⟨hseparate, hkept⟩ := h ⟨hkeys, key, hkey⟩
  have hreread : ∀ table ∈ tables,
      (rows table).map (codec.reread options.format table.columns) = rows table := by
    intro table htable
    refine (map_congr_left fun row hrow => ?_).trans (map_id _)
    exact hkept table htable row (hrows table htable row hrow)
      ((htables table htable).arity row hrow)
  have hfiles : FilesHold codec folder.locate options.format rows tables _ :=
    filesHold_of_separate hseparate hkeys rows files hkey (some (codec.manifest manifest))
  refine ⟨hentries ▸ (entriesHold_entriesOf 0).mpr ⟨hfiles, hreread⟩, ?_⟩
  intro τ target plans importOptions fuel state state' token token' imported hplans hnames himport
    hcancelled hfailed
  have hloaded := runImport_spec hfiles (readManifest_ok hkey (Function.update_self ..) hversion)
    hentries himport hcancelled hfailed
  rw [forall₂_map_left_iff, forall₂_iff_zip] at hloaded
  rw [forall₂_iff_zip]
  refine ⟨hloaded.1, fun {plan loaded} hmem => ?_⟩
  obtain ⟨table, hfind, hloads⟩ := hloaded.2 hmem
  -- The first table of the plan's name is the plan's own table.
  have hplan : plan ∈ plans := (of_mem_zip hmem).1
  have htable : plan.2 ∈ tables := hplans.subset (mem_map_of_mem hplan)
  rw [hnames plan hplan, find_key hseparate.names htable] at hfind
  cases hfind
  rw [hloads, hreread _ htable]

/-! ## Tables that come back are separate -/

/-- A database with these rows. -/
def database (tables : List ExportTable) (rows : ExportTable → List (List V)) : Connection V :=
  fun request =>
    match tables.find? fun table => (table.schema, table.name) = (request.schema, request.table) with
    | some table => Connection.ofRows table.columns (rows table) request
    | none => .ok []

/-- A folder that accepts every write. -/
def acceptingFolder (locate : Text → Except Text Key) : Folder Key C where
  createDirAll := .ok ()
  locate := locate
  refuse := fun _ _ => none
  flush := fun _ => none

section

variable (hdistinct : (tables.map fun table => (table.schema, table.name)).Nodup)
  (hcolumns : ∀ table ∈ tables, (table.columns.map (·.name)).Nodup)
include hdistinct hcolumns

/-- A table of at most one row. -/
theorem tableOf_database (htable : table ∈ tables) (hone : (rows table).length ≤ 1)
    (harity : ∀ row ∈ rows table, row.length = table.columns.length) :
    TableOf (database tables rows) 1 table (rows table) where
  serves := by
    have hpage (start : PageStart V) (limit : ℕ) :
        database tables rows ⟨table.schema, table.name, table.columns.map (·.name), start, limit⟩ =
          Connection.ofRows table.columns (rows table)
            ⟨table.schema, table.name, table.columns.map (·.name), start, limit⟩ := by
      simp only [database, find_key (pairwise_map.mp hdistinct) htable]
    unfold Serves
    split
    next key hkey =>
      refine ⟨fun row hrow => isSome_keyValue hkey (harity row hrow), ?_, ?_⟩
      · cases hrows : rows table with
        | nil => exact .nil
        | cons row rest =>
          rw [hrows] at hone
          obtain rfl : rest = [] := by simpa using hone
          exact pairwise_singleton _ _
      · intro last limit page h
        rw [hpage] at h
        exact (Except.ok.inj h).symm
    next =>
      intro offset limit page h
      rw [hpage] at h
      exact (Except.ok.inj h).symm
  fits := .inr (by simp only [max_self, Nat.div_one]; omega)
  names := hcolumns table htable
  arity := harity

variable (hcreatable : Creatable locate format tables)
  (hback : PutsBack codec locate null format Row tables)
include hcreatable hback

/-- Tables that come back and whose files can be created: an export of at most one
row per table. -/
theorem exists_export (hrows : FewRows Row rows) :
    ∃ (manifest : TransferManifest) (key : Key) (files : Files Key C),
      locate manifestName = .ok key ∧
      readManifest codec (acceptingFolder locate) files = .ok manifest ∧
      manifest.tables = entriesOf format rows 0 tables ∧
      files = Function.update (writtenFiles codec locate format rows tables fun _ => none) key
        (some (codec.manifest manifest)) ∧
      FilesHold codec locate format rows tables files ∧
      (∀ table ∈ tables, (rows table).map (codec.reread format table.columns) = rows table) ∧
      ImportsBack codec (acceptingFolder locate) null rows tables files := by
  have hfolder : (acceptingFolder locate : Folder Key C).Accepting :=
    ⟨rfl, fun _ _ => rfl, fun _ => rfl⟩
  have htables : ∀ table ∈ tables, TableOf (database tables rows) 1 table (rows table) :=
    fun table htable =>
      tableOf_database hdistinct hcolumns htable (hrows.one table) (hrows.arity table)
  have hanswers (request) : ∃ page, database tables rows request = .ok page := by
    unfold database
    split
    · unfold Connection.ofRows
      split <;> exact ⟨_, rfl⟩
    · exact ⟨_, rfl⟩
  obtain ⟨hkeys, key, hkey⟩ := hcreatable
  obtain ⟨outcome, manifest, files, token, hrun, hmanifest⟩ :=
    runExport_ok codec null ⟨[], [], format, 1, []⟩ 2 (fun _ => none) ⟨none, 0⟩ htables
      hanswers hfolder rfl hkeys (fun table _ => by have := hrows.one table; omega) hkey
  obtain ⟨-, hversion, hentries, key', hkey', hfiles⟩ := runExport_spec htables hrun hmanifest
  obtain rfl : key' = key := Except.ok.inj (hkey'.symm.trans hkey)
  obtain ⟨hhold, himport⟩ := hback _ _ _ _ _ _ _ _ _ _ _ htables
    (fun table _ => hrows.all table) rfl rfl hrun hmanifest
  rw [hentries, entriesHold_entriesOf] at hhold
  have hread : readManifest codec (acceptingFolder locate) files = .ok manifest :=
    readManifest_ok hkey (hfiles ▸ Function.update_self ..) hversion
  exact ⟨manifest, key', files, hkey, hread, hentries, hfiles, hhold.1, hhold.2, himport⟩

/-- The format gives the rows of tables that come back as they were. -/
theorem kept_of_putsBack : Kept codec format tables Row := by
  intro table htable row hrow harity
  obtain ⟨-, -, -, -, -, -, -, -, hreread, -⟩ :=
    exists_export hdistinct hcolumns hcreatable hback (fewRows_oneRow hrow harity)
  have hown := hreread table htable
  rw [oneRow, if_pos rfl] at hown
  exact singleton_injective hown

/-- No file of a table that comes back is the manifest. -/
theorem file_ne_manifest (htable : table ∈ tables) :
    locate (table.file format) ≠ locate manifestName := by
  intro heq
  have hempty : FewRows Row fun _ => [] := ⟨by simp, by simp, by simp⟩
  obtain ⟨manifest, key, files, hkey, -, -, rfl, hhold, -, -⟩ :=
    exists_export hdistinct hcolumns hcreatable hback hempty
  obtain ⟨key', hkey', hfile⟩ := hhold table htable
  obtain rfl : key' = key := Except.ok.inj (hkey'.symm.trans (heq.trans hkey))
  rw [Function.update_self] at hfile
  exact codec.manifest_ne _ _ _ _ (Option.some.inj hfile)

variable {before behind : List ExportTable} {later : ExportTable}

variable (htables : tables = before ++ behind)
include htables

/-- What the tables behind a table that comes back leave in its file, if they
write it. -/
theorem writtenFiles_behind {key : Key} (htable : table ∈ before) (hlater : later ∈ behind)
    (hkey : locate (table.file format) = .ok key) (hkey' : locate (later.file format) = .ok key)
    (hrows : FewRows Row rows) :
    writtenFiles codec locate format rows behind (fun _ => none) key =
      some (codec.content format table.columns (rows table)) := by
  have hmem : table ∈ tables := htables ▸ mem_append_left behind htable
  obtain ⟨manifest, mkey, files, hmkey, -, -, rfl, hhold, -, -⟩ :=
    exists_export hdistinct hcolumns hcreatable hback hrows
  obtain ⟨key₁, hkey₁, hfile⟩ := hhold table hmem
  obtain rfl : key₁ = key := Except.ok.inj (hkey₁.symm.trans hkey)
  have hne : key₁ ≠ mkey := by
    rintro rfl
    exact file_ne_manifest hdistinct hcolumns hcreatable hback hmem (hkey.trans hmkey.symm)
  rw [Function.update_of_ne hne, htables, writtenFiles, foldl_append] at hfile
  rw [← hfile]
  exact writtenFiles_eq_of_exists ⟨later, hlater, hkey'⟩ _ _

variable (hrow : ∀ table ∈ tables, ∃ row, Row table row ∧ row.length = table.columns.length)
include hrow

/-- The file of a table that comes back is not written again. -/
theorem file_ne_later (htable : table ∈ before)
    (hlater : later ∈ behind) : locate (table.file format) ≠ locate (later.file format) := by
  intro heq
  have hmem : table ∈ tables := htables ▸ mem_append_left behind htable
  obtain ⟨key, hkey⟩ := hcreatable.1 table hmem
  have hkey' := heq.symm.trans hkey
  have hbehind : table ∉ behind := by
    intro hagain
    have hnodup := (htables ▸ hdistinct).of_map
    exact (nodup_append.mp hnodup).2.2 _ htable _ hagain rfl
  obtain ⟨row, hrow, harity⟩ := hrow table hmem
  -- Without rows and with one row, the tables behind leave the same file.
  have hnone : writtenFiles codec locate format (fun _ => []) behind (fun _ => none) key =
      some (codec.content format table.columns []) :=
    writtenFiles_behind hdistinct hcolumns hcreatable hback htables htable hlater hkey hkey'
      ⟨by simp, by simp, by simp⟩
  have hsome : writtenFiles codec locate format (oneRow table row) behind (fun _ => none) key =
      some (codec.content format table.columns (oneRow table row table)) :=
    writtenFiles_behind hdistinct hcolumns hcreatable hback htables htable hlater hkey hkey'
      (fewRows_oneRow hrow harity)
  have hcongr : ∀ table' ∈ behind, oneRow table row table' = [] := by
    intro table' htable'
    rw [oneRow, if_neg]
    rintro rfl
    exact hbehind htable'
  rw [writtenFiles_congr hcongr, hnone, oneRow, if_pos rfl] at hsome
  exact codec.append_ne format table.columns _ _ (Option.some.inj hsome).symm

/-- The name of a table that comes back is not used again. -/
theorem name_ne_later (htable : table ∈ before)
    (hlater : later ∈ behind) : table.name ≠ later.name := by
  intro heq
  have hmem : later ∈ tables := htables ▸ mem_append_right before hlater
  -- The import finds another table first.
  obtain ⟨first, hfirst, hbefore⟩ : ∃ first,
      tables.find? (·.name = later.name) = some first ∧ first ∈ before := by
    have hsome : (before.find? (·.name = later.name)).isSome := by
      rw [find?_isSome]
      exact ⟨table, htable, by simpa using heq⟩
    obtain ⟨first, hfirst⟩ := Option.isSome_iff_exists.mp hsome
    exact ⟨first, by rw [htables, find?_append, hfirst, Option.some_or],
      mem_of_find?_eq_some hfirst⟩
  have hne : later ≠ first := by
    rintro rfl
    have hnodup := (htables ▸ hdistinct).of_map
    exact (nodup_append.mp hnodup).2.2 _ hbefore _ hlater rfl
  obtain ⟨row, hrow, harity⟩ := hrow first (htables ▸ mem_append_left behind hbefore)
  obtain ⟨manifest, key, files, -, hmanifest, hentries, -, hhold, -, himport⟩ :=
    exists_export hdistinct hcolumns hcreatable hback (fewRows_oneRow hrow harity)
  obtain ⟨outcome, token, hrun, hcancelled, hfailed⟩ :=
    runImport_ok null ⟨1, [], false⟩ 2 ⟨none, 0⟩ hhold hmanifest hentries
      (fun table _ => by have := oneRow_length first row table; omega) rfl
  have hloaded := runImport_spec hhold hmanifest hentries hrun hcancelled hfailed
  have hown := himport Unit acceptingTarget (tables.map fun table => (table.plan, table))
    ⟨1, [], false⟩ 2 () () ⟨none, 0⟩ token outcome
    (by rw [map_map, show Prod.snd ∘ _ = id from rfl, map_id]) (by simp [ExportTable.plan])
    (by rw [map_map]; exact hrun) hcancelled hfailed
  rw [forall₂_map_left_iff, forall₂_iff_zip] at hloaded hown
  obtain ⟨loaded, hzip⟩ : ∃ loaded, (later, loaded) ∈ tables.zip outcome.loaded := by
    obtain ⟨i, hi, rfl⟩ := mem_iff_getElem.mp hmem
    have hi' : i < outcome.loaded.length := hown.1 ▸ hi
    refine ⟨outcome.loaded[i], mem_iff_getElem.mpr ⟨i, ?_, getElem_zip⟩⟩
    rw [length_zip]
    exact lt_min hi hi'
  -- One row was loaded for the later table, which has none.
  obtain ⟨table', hfind, hrows⟩ := hloaded.2 hzip
  obtain rfl : first = table' := Option.some.inj (hfirst.symm.trans hfind)
  have hlength := congrArg List.length (hrows.symm.trans (hown.2 hzip))
  simp [rowsFor, oneRow, hne] at hlength

omit htables

end

/-- **Export and import again.** For tables with distinct schemas and names that may
have the given rows: whichever of these they have, every export of them that writes
its manifest can be imported again exactly if, provided all files can be created, no
two tables share a file or a name, no file is the manifest, and the format gives each
of the rows back as it was. -/
theorem putsBack_iff (hdistinct : (tables.map fun table => (table.schema, table.name)).Nodup)
    (hcolumns : ∀ table ∈ tables, (table.columns.map (·.name)).Nodup)
    (hrow : ∀ table ∈ tables, ∃ row, Row table row ∧ row.length = table.columns.length) :
    PutsBack codec locate null format Row tables ↔ (Creatable locate format tables →
      Separate locate format tables ∧ Kept codec format tables Row) := by
  constructor
  · intro hback hcreatable
    have hpairwise {r : ExportTable → ExportTable → Prop}
        (hr : ∀ before behind, tables = before ++ behind →
          ∀ table ∈ before, ∀ later ∈ behind, r table later) : tables.Pairwise r := by
      rw [pairwise_iff_forall_sublist]
      intro table later hsublist
      obtain ⟨before, behind, htables, htable, hlater⟩ := cons_sublist_iff.mp hsublist
      exact hr before behind htables table htable later (singleton_sublist.mp hlater)
    refine ⟨⟨?_, ?_, ?_⟩, kept_of_putsBack hdistinct hcolumns hcreatable hback⟩
    · exact hpairwise fun _ _ htables _ htable _ hlater =>
        file_ne_later hdistinct hcolumns hcreatable hback htables hrow htable hlater
    · exact fun _ htable => file_ne_manifest hdistinct hcolumns hcreatable hback htable
    · exact hpairwise fun _ _ htables _ htable _ hlater =>
        name_ne_later hdistinct hcolumns hcreatable hback htables hrow htable hlater
  · exact putsBack_of_separate

end

/-! ## Tables that do not come back -/

/-- A file as the rows or the manifest in it. -/
inductive PlainFile (V : Type) where
  | table (rows : List (List V))
  | manifest (manifest : TransferManifest)
  deriving DecidableEq

/-- One more row. -/
def PlainFile.append {V : Type} (row : List V) : PlainFile V → PlainFile V
  | .table rows => .table (rows ++ [row])
  | .manifest _ => .table [row]

theorem foldl_append_plainFile (rows written : List (List V)) :
    rows.foldl (fun content row => PlainFile.append row content) (.table written) =
      .table (written ++ rows) := by
  induction rows generalizing written with
  | nil => rw [foldl_nil, append_nil]
  | cons row rows ih =>
    show rows.foldl _ (PlainFile.table (written ++ [row])) = _
    rw [ih, append_assoc, singleton_append]

/-- Rows and manifests as they are, with rows that are read as given. -/
def plainCodec {V : Type} (reread : FileFormat → List V → List V) : FileCodec V (PlainFile V) where
  empty := .table []
  header := fun _ _ content => content
  append := fun _ _ content row => content.append row
  read := fun format _ content =>
    match content with
    | .table rows => rows.map fun row => .ok (reread format row)
    | .manifest _ => []
  reread := fun format _ row => reread format row
  manifest := .manifest
  readManifest := fun content =>
    match content with
    | .table _ => .error []
    | .manifest manifest => .ok manifest
  read_written := by
    intro format columns rows
    rw [foldl_append_plainFile, nil_append]
  append_ne := by
    intro format columns content row h
    cases content with
    | table rows => simp [PlainFile.append] at h
    | manifest manifest => cases h
  readManifest_manifest := fun _ => rfl
  manifest_ne := by
    intro manifest format columns rows h
    rw [foldl_append_plainFile] at h
    cases h

/-- A table with one column. -/
def oneColumn (schema : Option String) (name : String) : ExportTable :=
  ⟨schema.map (·.toList), name.toList, [⟨"c".toList, none, true, false⟩], none⟩

/-- A value of a column of texts, which is none for `NULL`, behind `value_to_csv_field`
(`dbflux_export/src/csv.rs`, lines 44–48) and `value_from_csv_field` (`value_codec.rs`,
lines 17–23); a JSON file keeps it. -/
def textRead (format : FileFormat) (row : List (WithBot Text)) : List (WithBot Text) :=
  row.map fun value =>
    let field := value.unbotD []
    if format = .csv ∧ field = [] then ⊥ else value

theorem textRead_of_notMem {row : List (WithBot Text)} (hrow : WithBot.some [] ∉ row) :
    textRead format row = row := by
  refine (map_congr_left fun value hvalue => ?_).trans (map_id row)
  cases value with
  | bot => exact ite_self _
  | coe text =>
    have htext : text ≠ [] := fun h => hrow (h ▸ hvalue)
    exact if_neg fun h => htext h.2

/-- Two tables of two schemas with different names come back from CSV files if none of
their texts is empty. -/
theorem two_tables_come_back : PutsBack (plainCodec textRead) (.ok : Text → Except Text Text)
    ⊥ .csv (fun _ row => WithBot.some [] ∉ row) [oneColumn (some "a") "t", oneColumn (some "b") "u"] :=
  (putsBack_iff (by decide) (by decide) fun table _ =>
    ⟨table.columns.map fun _ => ⊥, by simp, length_map _⟩).mpr fun _ =>
    ⟨⟨by decide, by decide, by decide⟩, fun _ _ _ hrow _ => textRead_of_notMem hrow⟩

/-- The table `c` of the schema `a.b` and the table `b.c` of the schema `a` share
the file `a.b.c.json`, and the row of the first is lost. The tables `t` of two
schemas share a name, and both plans load the row of the first. A table with an empty
text comes back from a CSV file with `NULL`. -/
theorem names_joined_by_dot :
    (∃ outcome files token, runExport (plainCodec textRead) (acceptingFolder .ok) ⊥
        (database [oneColumn (some "a.b") "c", oneColumn (some "a") "b.c"]
          (oneRow (oneColumn (some "a.b") "c") [WithBot.some ['7']]))
        [oneColumn (some "a.b") "c", oneColumn (some "a") "b.c"] ⟨[], [], .json, 10, []⟩ 2
        (fun _ => none) ⟨none, 0⟩ = some (.ok outcome, files, token) ∧
      outcome.manifest.map (·.tables.map (·.file)) =
        some ["a.b.c.json".toList, "a.b.c.json".toList] ∧
      files "a.b.c.json".toList = some (.table [])) ∧
    (∃ outcome files token imported token', runExport (plainCodec textRead) (acceptingFolder .ok)
        ⊥ (database [oneColumn (some "a") "t", oneColumn (some "b") "t"]
          (oneRow (oneColumn (some "a") "t") [WithBot.some ['7']]))
        [oneColumn (some "a") "t", oneColumn (some "b") "t"] ⟨[], [], .json, 10, []⟩ 2
        (fun _ => none) ⟨none, 0⟩ = some (.ok outcome, files, token) ∧
      runImport (plainCodec textRead) (acceptingFolder .ok) ⊥ acceptingTarget ⟨10, [], false⟩ 2
        files [(oneColumn (some "a") "t").plan, (oneColumn (some "b") "t").plan] () ⟨none, 0⟩ =
          some (.ok imported, (), token') ∧
      imported.loaded.map (·.rows) = [[[WithBot.some ['7']]], [[WithBot.some ['7']]]]) ∧
    (∃ outcome files token imported token', runExport (plainCodec textRead) (acceptingFolder .ok)
        ⊥ (database [oneColumn none "t"] (oneRow (oneColumn none "t") [WithBot.some []]))
        [oneColumn none "t"] ⟨[], [], .csv, 10, []⟩ 2 (fun _ => none) ⟨none, 0⟩ =
          some (.ok outcome, files, token) ∧
      runImport (plainCodec textRead) (acceptingFolder .ok) ⊥ acceptingTarget ⟨10, [], false⟩ 2
        files [(oneColumn none "t").plan] () ⟨none, 0⟩ = some (.ok imported, (), token') ∧
      imported.loaded.map (·.rows) = [[[⊥]]]) :=
  ⟨⟨_, _, _, rfl, rfl, rfl⟩, ⟨_, _, _, _, _, rfl, rfl, rfl⟩, _, _, _, _, _, rfl, rfl, rfl⟩

end Dbflux.Transfer
