import Dbflux.Transfer.Folder

/-!
# What an export writes

An export that writes its manifest has created the file of every table, in the
order of the tables (`writtenFiles`), and the manifest last. A later table with
the same file replaces it.

Results:
* `exportTable_spec`: one table that is exported with the token unset.
* `runExport_spec`: what an export with a manifest has written.
* `runExport_ok`: an export of tables that can be read into a folder that accepts
  everything writes its manifest.
-/

namespace Dbflux.Transfer

open Lib List
open Function (update_eq_self update_self update_idem)

variable {V C Key : Type}

/-! ## The identity map -/

variable {columns : List TransferColumn} {files files' : Files Key C} {key : Key} {content : C}

theorem columnIndex_self (hnodup : (columns.map (·.name)).Nodup) {i : ℕ} (hi : i < columns.length) :
    columnIndex columns columns[i].name = some i := by
  unfold columnIndex
  rw [findIdx?_eq_some_iff_getElem]
  refine ⟨hi, by simp, ?_⟩
  intro j hj heq
  have hi' : i < (columns.map (·.name)).length := by simpa using hi
  have hij : j = i := by
    have hinj : (columns.map (·.name))[j] = (columns.map (·.name))[i] ↔ j = i :=
      List.Nodup.getElem_inj_iff hnodup
    exact hinj.mp (by simpa using heq)
  omega

/-- Mapping the columns of a table to themselves changes no row. -/
theorem project_new_self (null : V) (hnodup : (columns.map (·.name)).Nodup) {row : List V}
    (hrow : row.length = columns.length) :
    (AutoColumnMap.new columns columns).project null row = row := by
  have hmap : autoMap columns columns = (List.range columns.length).map some := by
    apply ext_getElem
    · simp [autoMap]
    · intro i hi _
      simpa [autoMap] using columnIndex_self hnodup (by simpa [autoMap] using hi)
  apply ext_getElem
  · simp [AutoColumnMap.project, AutoColumnMap.new, hmap, hrow]
  · intro i hi hi'
    simp [AutoColumnMap.project, AutoColumnMap.new, hmap, hi']

/-! ## The sink of a file -/

variable [DecidableEq Key] {codec : FileCodec V C} {folder : Folder Key C}

theorem write_ok (h : folder.write files key content = (.ok (), files')) :
    files' = Function.update files key (some content) := by
  unfold Folder.write at h
  split at h
  · simp at h
  · exact (Prod.mk.inj h).2.symm

theorem writeRows_ok {format : FileFormat} {rows : List (List V)}
    (h : writeRows codec folder format columns key rows files = (.ok (), files'))
    (hcontent : files key = some content) :
    files' = Function.update files key (some (rows.foldl (codec.append format columns) content)) := by
  induction rows generalizing files content with
  | nil =>
    obtain rfl := (Prod.mk.inj h).2
    rw [foldl_nil, ← hcontent, update_eq_self]
  | cons row rows ih =>
    rw [writeRows] at h
    split at h
    next => simp at h
    next written hwrite =>
      obtain rfl := write_ok hwrite
      rw [hcontent, Option.getD_some] at h
      rw [ih h (update_self ..), update_idem, foldl_cons]

/-- Chunks that the sink of a file takes end up in its file. -/
theorem fed_fileSink {sink sink' : FileSink Key} {chunks : List (List (List V))}
    (h : Fed (fileSink codec folder columns) (sink, files) chunks (sink', files'))
    (hwriter : sink.writer = some key) (hcontent : files key = some content) :
    sink'.writer = some key ∧ sink'.rowsWritten = sink.rowsWritten + chunks.flatten.length ∧
      files' = Function.update files key
        (some (chunks.flatten.foldl (codec.append sink.format sink.columns) content)) := by
  generalize hstart : (sink, files) = start at h
  generalize hstop : (sink', files') = stop at h
  induction h generalizing sink files content with
  | nil =>
    obtain ⟨rfl, rfl⟩ := Prod.mk.inj (hstart.trans hstop.symm)
    exact ⟨hwriter, rfl, by rw [flatten_nil, foldl_nil, ← hcontent, update_eq_self]⟩
  | @cons _ between _ n chunk chunks hwrite hfed ih =>
    subst hstart
    simp only [fileSink, hwriter] at hwrite
    split at hwrite
    next => simp at hwrite
    next files'' hrows =>
      obtain ⟨-, rfl⟩ := Prod.mk.inj hwrite
      obtain rfl := writeRows_ok hrows hcontent
      obtain ⟨hw, hn, hf⟩ := ih (by rfl) (by exact update_self ..) rfl hstop
      refine ⟨hw, ?_, ?_⟩
      · rw [hn, flatten_cons, length_append]
        simp only
        omega
      · rw [hf, update_idem, flatten_cons, foldl_append]

/-! ## The token -/

section

theorem readsToken_tableSource : ReadsToken (tableSource : RowSource (List V) (TableSource V)) := by
  intro source token
  unfold tableSource
  dsimp only
  split_ifs
  · exact .inl rfl
  · exact .inr rfl
  · split
    all_goals exact .inr rfl

variable {null : V} {connection : Connection V} {options : ExportOptions}

variable {fuel index : ℕ} {files : Files Key C} {token : CancelToken} {tables : List ExportTable}

variable {exported : Exported Key C}

theorem later_exportLoop
    (h : exportLoop codec folder null connection options fuel index tables files token =
      some exported) : token.Later exported.token := by
  induction tables generalizing index files token exported with
  | nil =>
    cases h
    exact .refl _
  | cons table tables ih =>
    rw [exportLoop] at h
    split at h
    · cases h
      exact token.later_read
    split at h
    · cases h
    next run hrun =>
    have hlater : token.Later run.token :=
      token.later_read.trans (later_runTransfer readsToken_tableSource hrun)
    split at h
    · cases h
      exact hlater
    split at h
    · cases h
      exact hlater
    obtain ⟨rest, hrest, rfl⟩ := Option.map_eq_some_iff.mp h
    have hnext : run.token.Later rest.token := ih hrest
    exact hlater.trans hnext

/-! ## Folders that accept everything -/

/-- A folder that accepts every write. -/
structure Folder.Accepting (folder : Folder Key C) : Prop where
  createDirAll : folder.createDirAll = .ok ()
  refuse : ∀ key content, folder.refuse key content = none
  flush : ∀ key, folder.flush key = none

theorem Folder.Accepting.write (hfolder : folder.Accepting) (files : Files Key C) (key : Key)
    (content : C) :
    folder.write files key content = (.ok (), Function.update files key (some content)) := by
  simp [Folder.write, hfolder.refuse]

theorem Folder.Accepting.writeRows (hfolder : folder.Accepting) (codec : FileCodec V C)
    (format : FileFormat)
    (columns : List TransferColumn) (key : Key) (rows : List (List V)) (files : Files Key C) :
    ∃ files', Transfer.writeRows codec folder format columns key rows files = (.ok (), files') := by
  induction rows generalizing files with
  | nil => exact ⟨files, rfl⟩
  | cons row rows ih =>
    simp only [Transfer.writeRows, hfolder.write]
    exact ih _

theorem accepts_fileSink (hfolder : folder.Accepting) (columns : List TransferColumn) :
    Accepts (fileSink codec folder columns) (fun state => state.1.writer.isSome) where
  write := by
    rintro ⟨sink, files⟩ rows hwriter
    obtain ⟨key, hkey⟩ : ∃ key, sink.writer = some key := Option.isSome_iff_exists.mp hwriter
    obtain ⟨files', hrows⟩ := hfolder.writeRows codec sink.format sink.columns key rows files
    simp only [fileSink, hkey, hrows]
    exact ⟨_, _, rfl, rfl⟩
  finish := by
    rintro ⟨sink, files⟩ hwriter
    obtain ⟨key, hkey⟩ : ∃ key, sink.writer = some key := Option.isSome_iff_exists.mp hwriter
    simp only [fileSink, hkey, Option.bind_some, hfolder.flush]
    exact ⟨_, _, rfl⟩

/-- A source keeps its connection. -/
theorem connection_nextChunk {source source' : TableSource V} {token' : CancelToken}
    {answer : Except TransferError (Option (List (List V)))}
    (h : tableSource.nextChunk source token = (answer, source', token')) :
    source'.connection = source.connection := by
  unfold tableSource at h
  dsimp only at h
  have hbehind (rows : List (List V)) : (source.behind rows).connection = source.connection := by
    unfold TableSource.behind
    dsimp only
    split
    · split <;> rfl
    · rfl
  split_ifs at h
  · cases h; rfl
  · cases h; rfl
  · split at h <;> cases h
    · rfl
    · rfl
    · exact hbehind _

/-! ## One table -/

variable [Preorder V] [DecidableLT V]

/-- The connection answers the pages of a table with these rows. -/
structure TableOf (connection : Connection V) (segmentSize : ℕ) (table : ExportTable)
    (rows : List (List V)) : Prop where
  serves : Serves connection table.schema table.name table.columns rows
  fits : OffsetsFit table.columns (max segmentSize 1) rows
  names : (table.columns.map (·.name)).Nodup
  arity : ∀ row ∈ rows, row.length = table.columns.length

/-- A table that is exported with the token unset has its rows in its file. -/
theorem exportTable_spec {table : ExportTable} {rows : List (List V)}
    {run : Transferred (List V) (TableSource V) (FileSink Key × Files Key C)}
    {report : TransferReport} (htable : TableOf connection options.segmentSize table rows)
    (hrun : exportTable codec folder null connection options fuel table files token = some run)
    (hresult : run.result = .ok report) (hunset : run.token.isCancelled = false) :
    ∃ key, folder.locate (table.file options.format) = .ok key ∧
      run.sink.2 = Function.update files key
        (some (codec.content options.format table.columns rows)) ∧
      report.rowsTransferred = rows.length ∧ report.outcome = .completed := by
  have hsegment : 0 < max options.segmentSize 1 := by omega
  obtain ⟨hchunks, ⟨sink₀, files₀⟩, ⟨sink', files'⟩, own, hbegin, hfed, hfinish, rfl⟩ :=
    uncancelled_run (tableSource_delivers hsegment)
      (holds_new options.segmentSize table.estimatedTotal htable.serves htable.fits) hrun hresult
      hunset
  have hrows : run.chunks.flatten = rows := by
    rw [hchunks]
    exact (map_congr_left fun row hrow =>
      project_new_self null htable.names (htable.arity row hrow)).trans rows.map_id
  simp only [fileSink] at hbegin
  split at hbegin
  next => simp at hbegin
  next key hlocate =>
    split at hbegin
    next => simp at hbegin
    next hheader =>
      obtain ⟨-, hstart⟩ := Prod.mk.inj hbegin
      obtain ⟨rfl, rfl⟩ := Prod.mk.inj hstart
      obtain rfl := write_ok hheader
      obtain ⟨hwriter, hwritten, rfl⟩ := fed_fileSink hfed rfl (update_self ..)
      simp only [fileSink, hwriter] at hfinish
      split at hfinish
      next => simp at hfinish
      next =>
        obtain ⟨hown, hsink⟩ := Prod.mk.inj hfinish
        cases hown
        refine ⟨key, hlocate, ?_, ?_, rfl⟩
        · rw [← hsink, hrows, update_idem, update_idem]
          rfl
        · simpa [FileSink.new, hrows] using hwritten

/-! ## All tables -/

/-- The files behind a table. -/
def writtenFile (codec : FileCodec V C) (locate : Text → Except Text Key) (format : FileFormat)
    (rows : ExportTable → List (List V)) (files : Files Key C) (table : ExportTable) :
    Files Key C :=
  match locate (table.file format) with
  | .ok key => Function.update files key (some (codec.content format table.columns (rows table)))
  | .error _ => files

/-- The files behind the tables, one after the other. -/
def writtenFiles (codec : FileCodec V C) (locate : Text → Except Text Key) (format : FileFormat)
    (rows : ExportTable → List (List V)) (tables : List ExportTable) (files : Files Key C) :
    Files Key C :=
  tables.foldl (writtenFile codec locate format rows) files

/-- The entries of the tables, counted from `index`. -/
def entriesOf (format : FileFormat) (rows : ExportTable → List (List V)) (index : ℕ)
    (tables : List ExportTable) : List ManifestTable :=
  (tables.zipIdx index).map fun (table, i) => table.entry format (rows table).length i

variable {rows : ExportTable → List (List V)}
  (htables : ∀ table ∈ tables, TableOf connection options.segmentSize table (rows table))

include htables

/-- A loop that ends with the token unset and no failed table has written every
table. -/
theorem exportLoop_spec
    (h : exportLoop codec folder null connection options fuel index tables files token =
      some exported) (hunset : exported.token.isCancelled = false)
    (hfailed : exported.tables.any (·.status.isFailed) = false) :
    (∀ table ∈ tables, ∃ key, folder.locate (table.file options.format) = .ok key) ∧
      exported.entries = entriesOf options.format rows index tables ∧
      exported.files = writtenFiles codec folder.locate options.format rows tables files := by
  induction tables generalizing index files token exported with
  | nil =>
    cases h
    exact ⟨by simp, rfl, rfl⟩
  | cons table tables ih =>
    obtain ⟨htable, htables⟩ := forall_mem_cons.mp htables
    have hlater := later_exportLoop h
    rw [exportLoop, if_neg (by simp [hlater.not_isCancelled hunset])] at h
    split at h
    · cases h
    next run hrun =>
    split at h
    · -- A failed table is among the statuses.
      cases h
      simp [TableTransferStatus.isFailed] at hfailed
    next report hresult =>
    split at h
    next hcancelled =>
      cases h
      obtain ⟨-, -, -, -, hcompleted⟩ := exportTable_spec htable hrun hresult hunset
      rw [hcancelled] at hcompleted
      cases hcompleted
    obtain ⟨rest, hrest, rfl⟩ := Option.map_eq_some_iff.mp h
    have hrun_unset : run.token.isCancelled = false :=
      (later_exportLoop hrest).not_isCancelled hunset
    obtain ⟨key, hlocate, hfiles, hcount, -⟩ := exportTable_spec htable hrun hresult hrun_unset
    simp only [any_cons, Bool.or_eq_false_iff] at hfailed
    obtain ⟨hkeys, hentries, hwritten⟩ := ih htables hrest hunset hfailed.2
    refine ⟨forall_mem_cons.mpr ⟨⟨key, hlocate⟩, hkeys⟩, ?_, ?_⟩
    · show _ :: rest.entries = _
      rw [hentries, hcount]
      rfl
    · show rest.files = _
      rw [hwritten, hfiles]
      simp [writtenFiles, writtenFile, hlocate]

/-- **What an export writes.** An export with a manifest has created the file of
every table in turn, and then the manifest with one entry per table. -/
theorem runExport_spec {files' : Files Key C} {token' : CancelToken} {outcome : ExportOutcome}
    {manifest : TransferManifest}
    (h : runExport codec folder null connection tables options fuel files token =
      some (.ok outcome, files', token')) (hmanifest : outcome.manifest = some manifest) :
    (∀ table ∈ tables, ∃ key, folder.locate (table.file options.format) = .ok key) ∧
      manifest.version = TransferManifest.currentVersion ∧
      manifest.tables = entriesOf options.format rows 0 tables ∧
      ∃ key, folder.locate manifestName = .ok key ∧
        files' = Function.update (writtenFiles codec folder.locate options.format rows tables files)
          key (some (codec.manifest manifest)) := by
  unfold runExport at h
  split at h
  · simp at h
  obtain ⟨exported, hloop, h⟩ := Option.map_eq_some_iff.mp h
  dsimp only at h
  split at h
  · -- Without a manifest there is nothing to show.
    obtain ⟨hout, -⟩ := Prod.mk.inj h
    cases hout
    cases hmanifest
  next hneither =>
  simp only [Bool.or_eq_true, not_or, Bool.not_eq_true] at hneither
  obtain ⟨hkeys, hentries, hfiles⟩ := exportLoop_spec htables hloop hneither.1 hneither.2
  split at h
  · simp at h
  next key hlocate =>
  split at h
  · simp at h
  next hwrite =>
  obtain ⟨hout, hrest⟩ := Prod.mk.inj h
  cases hout
  cases hmanifest
  obtain ⟨rfl, -⟩ := Prod.mk.inj hrest
  exact ⟨hkeys, rfl, hentries, key, hlocate, by rw [write_ok hwrite, hfiles]⟩

/-! ## Exports that cannot fail -/

variable (hconnection : ∀ request, ∃ page, connection request = .ok page)
  (hfolder : folder.Accepting) (htoken : token.moment = none)

include hconnection hfolder htoken

omit htables in
variable (codec null files token) in
/-- A table that can be read goes into a folder that accepts it. -/
theorem exportTable_ok {table : ExportTable} {rows : List (List V)} {key : Key}
    (htable : TableOf connection options.segmentSize table rows)
    (hkey : folder.locate (table.file options.format) = .ok key) (hfuel : rows.length < fuel) :
    ∃ run report, exportTable codec folder null connection options fuel table files token =
        some run ∧ run.result = .ok report ∧ report.outcome = .completed ∧
      run.token.moment = none := by
  have hsegment : 0 < max options.segmentSize 1 := by omega
  have hdelivers : Delivers tableSource (max options.segmentSize 1) fun source rest =>
      source.connection = connection ∧ source.Holds rows (max options.segmentSize 1) rest :=
    (tableSource_delivers hsegment).and
      fun hnext hsource => (connection_nextChunk hnext).trans hsource
  obtain ⟨start, hbegin, hstart⟩ : ∃ start, (fileSink codec folder table.columns).begin
      (.new table.schema table.name options.format, files) = (.ok (), start) ∧
      start.1.writer.isSome := by
    simp only [ExportTable.file] at hkey
    simp only [fileSink, FileSink.new, hkey, hfolder.write]
    exact ⟨_, rfl, rfl⟩
  have hanswers : Answers tableSource fun source rest =>
      source.connection = connection ∧ source.Holds rows (max options.segmentSize 1) rest := by
    rintro source rest token ⟨rfl, -⟩
    unfold tableSource
    dsimp only
    split_ifs
    · exact ⟨_, _, _, rfl⟩
    · exact ⟨_, _, _, rfl⟩
    · obtain ⟨page, hpage⟩ := hconnection source.request
      rw [hpage]
      cases page with
      | nil | cons => exact ⟨_, _, _, rfl⟩
  obtain ⟨run, report, hrun, hresult⟩ := run_ok hdelivers hanswers
    (accepts_fileSink hfolder table.columns) hsegment token
    ⟨rfl, holds_new options.segmentSize table.estimatedTotal htable.serves htable.fits⟩ hbegin
    hstart hfuel
  have hmoment : run.token.moment = none :=
    (later_runTransfer readsToken_tableSource hrun).1.trans htoken
  obtain ⟨-, -, -, -, hcompleted⟩ := exportTable_spec htable hrun hresult
    (CancelToken.isCancelled_of_moment_none hmoment)
  exact ⟨run, report, hrun, hresult, hcompleted, hmoment⟩

variable (hkeys : ∀ table ∈ tables, ∃ key, folder.locate (table.file options.format) = .ok key)
  (hfuel : ∀ table ∈ tables, (rows table).length < fuel)

include hkeys hfuel

variable (codec null index files) in
theorem exportLoop_ok :
    ∃ exported, exportLoop codec folder null connection options fuel index tables files token =
        some exported ∧ exported.token.isCancelled = false ∧
      exported.tables.any (·.status.isFailed) = false := by
  induction tables generalizing index files token with
  | nil => exact ⟨_, rfl, CancelToken.isCancelled_of_moment_none htoken, rfl⟩
  | cons table tables ih =>
    obtain ⟨htable, htables⟩ := forall_mem_cons.mp htables
    obtain ⟨⟨key, hkey⟩, hkeys⟩ := forall_mem_cons.mp hkeys
    obtain ⟨hrows, hfuel⟩ := forall_mem_cons.mp hfuel
    obtain ⟨run, report, hrun, hresult, hcompleted, hmoment⟩ :=
      exportTable_ok codec null files token.read hconnection hfolder htoken htable hkey hrows
    obtain ⟨rest, hrest, hunset, hfailed⟩ :=
      ih (index + 1) run.sink.2 htables hmoment hkeys hfuel
    simp only [exportLoop, CancelToken.isCancelled_of_moment_none htoken, hrun, hresult,
      hcompleted, hrest, Option.map_some, Bool.false_eq_true, if_false]
    exact ⟨_, rfl, hunset, by simpa [TableTransferStatus.isFailed] using hfailed⟩

variable (codec null options fuel files token) in
/-- **Exports that cannot fail.** Tables that can be read, into a folder that can
create their files and accepts every write, with a token that is never set,
give a manifest. -/
theorem runExport_ok {key : Key} (hkey : folder.locate manifestName = .ok key) :
    ∃ outcome manifest files' token',
      runExport codec folder null connection tables options fuel files token =
        some (.ok outcome, files', token') ∧ outcome.manifest = some manifest := by
  obtain ⟨exported, hloop, hunset, hfailed⟩ :=
    exportLoop_ok codec null 0 files htables hconnection hfolder htoken hkeys hfuel
  simp only [runExport, hfolder.createDirAll, hloop, Option.map_some, hunset, hfailed,
    Bool.or_self, Bool.false_eq_true, if_false, hkey, hfolder.write]
  exact ⟨_, _, _, _, rfl, rfl⟩

end

/-! ## Lookups -/

section

variable {locate : Text → Except Text Key} {format : FileFormat}
  {rows : ExportTable → List (List V)} {tables : List ExportTable} {key : Key}

variable {table : ExportTable}

theorem writtenFile_self (hkey : locate (table.file format) = .ok key) (files : Files Key C) :
    writtenFile codec locate format rows files table key =
      some (codec.content format table.columns (rows table)) := by
  simp [writtenFile, hkey]

/-- A file of no table is left as it is. -/
theorem writtenFiles_of_forall_ne (h : ∀ table ∈ tables, locate (table.file format) ≠ .ok key)
    (files : Files Key C) :
    writtenFiles codec locate format rows tables files key = files key := by
  induction tables generalizing files with
  | nil => rfl
  | cons table tables ih =>
    show writtenFiles codec locate format rows tables _ key = _
    obtain ⟨hhead, h⟩ := forall_mem_cons.mp h
    rw [ih h, writtenFile]
    cases hlocate : locate (table.file format) with
    | error e => rfl
    | ok key' =>
      have hne : key ≠ key' := by
        rintro rfl
        exact hhead hlocate
      exact Function.update_of_ne hne ..

/-- The file of a table does not depend on what was there before. -/
theorem writtenFiles_eq_of_exists (h : ∃ table ∈ tables, locate (table.file format) = .ok key)
    (files files' : Files Key C) :
    writtenFiles codec locate format rows tables files key =
      writtenFiles codec locate format rows tables files' key := by
  induction tables generalizing files files' with
  | nil => simp at h
  | cons head tables ih =>
    show writtenFiles codec locate format rows tables _ key =
      writtenFiles codec locate format rows tables _ key
    by_cases hlater : ∃ table ∈ tables, locate (table.file format) = .ok key
    · exact ih hlater _ _
    · push Not at hlater
      have hhead : locate (head.file format) = .ok key := by
        obtain ⟨table, htable, hkey⟩ := h
        rcases mem_cons.mp htable with rfl | htable
        · exact hkey
        · exact absurd hkey (hlater table htable)
      rw [writtenFiles_of_forall_ne hlater, writtenFiles_of_forall_ne hlater,
        writtenFile_self hhead, writtenFile_self hhead]

/-- If no two tables share a file, the file of a table has its rows. -/
theorem writtenFiles_of_mem
    (hfiles : tables.Pairwise fun a b => locate (a.file format) ≠ locate (b.file format))
    (htable : table ∈ tables) (hkey : locate (table.file format) = .ok key) (files : Files Key C) :
    writtenFiles codec locate format rows tables files key =
      some (codec.content format table.columns (rows table)) := by
  induction tables generalizing files with
  | nil => cases htable
  | cons head tables ih =>
    show writtenFiles codec locate format rows tables _ key = _
    obtain ⟨hhead, htail⟩ := pairwise_cons.mp hfiles
    rcases mem_cons.mp htable with rfl | htable
    · rw [writtenFiles_of_forall_ne, writtenFile_self hkey]
      intro later hlater heq
      exact hhead later hlater (hkey.trans heq.symm)
    · exact ih htail htable _

/-- Tables with the same rows write the same files. -/
theorem writtenFiles_congr {rows' : ExportTable → List (List V)}
    (h : ∀ table ∈ tables, rows table = rows' table) (files : Files Key C) :
    writtenFiles codec locate format rows tables files =
      writtenFiles codec locate format rows' tables files := by
  induction tables generalizing files with
  | nil => rfl
  | cons head tables ih =>
    have hhead : writtenFile codec locate format rows files head =
        writtenFile codec locate format rows' files head := by
      unfold writtenFile
      rw [h head mem_cons_self]
    show writtenFiles codec locate format rows tables _ =
      writtenFiles codec locate format rows' tables _
    rw [hhead, ih (forall_mem_cons.mp h).2]

end

end Dbflux.Transfer
