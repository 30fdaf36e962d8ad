import Mathlib

/-!
# Paths and their resolution in a tree with symbolic links

A Unix path is the list of its pieces between slashes, so `/a//b/` is `["", "a", "", "b", ""]`:
every text has one such list. The tree has files, links and directories, and a link's target
is a path. Resolution goes through the pieces from a directory; empty pieces and `.` stay,
`..` goes up, and a link is replaced by its target. A link in the last piece is followed or
not, and a last piece that is missing is an error or a place to create a file; only a limited
number of links is followed.

Results:
* `walk_append`: to resolve one list of pieces after another is to resolve the second from
  where the first leads.
* `walk_create`: what exists is not created.
* `parent_absolute`: what `parent` takes off a path.
-/

namespace Dbflux.Lib.Files

open List

abbrev Piece := List UInt8

/-- The pieces of a path's text between slashes. -/
abbrev Path := List Piece

/-- A place in the tree, by the names that lead to it. -/
abbrev Place := List Piece

def dot : Piece := [46]

def dotDot : Piece := [46, 46]

/-- A piece that resolution passes over. -/
def isPassed (piece : Piece) : Bool := decide (piece = []) || decide (piece = dot)

/-- A piece that names an entry of a directory. -/
def isName (piece : Piece) : Bool := !isPassed piece && !decide (piece = dotDot)

namespace Path

/-- The path of a text. -/
def ofText (text : List UInt8) : Path := text.splitOn 47

/-- A text that begins with a slash has an empty first piece and a second one. -/
def isAbsolute : Path → Bool
  | [] :: _ :: _ => true
  | _ => false

/-- The path from the top whose further pieces are `body`. -/
def absolute (body : List Piece) : Path := [] :: if body = [] then [[]] else body

/-- `Path::join`. -/
def join (path other : Path) : Path :=
  if other.isAbsolute then other
  else (if path.getLast? = some [] then path.dropLast else path) ++ other

/-- `std::path::Component` on Unix. -/
inductive Component
  | rootDir
  | curDir
  | parentDir
  | normal (name : Piece)
deriving DecidableEq

def component (piece : Piece) : Option Component :=
  if isPassed piece then none else if piece = dotDot then some .parentDir else some (.normal piece)

/-- `Path::components`. -/
def components (path : Path) : List Component :=
  (if path.isAbsolute then [.rootDir] else if path.head? = some dot then [.curDir] else []) ++
    path.filterMap component

/-- `Path::starts_with`. -/
def startsWith (path base : Path) : Bool := base.components.isPrefixOf path.components

/-- The pieces of a path after the slash or the `.` it begins with. -/
def body : Path → List Piece
  | [] :: second :: rest => second :: rest
  | piece :: rest => if piece = dot then rest else piece :: rest
  | [] => []

/-- `Path::parent`: without the last component and the separators around it. -/
def parent (path : Path) : Option Path :=
  match path.body.rdropWhile isPassed with
  | [] => if path.head? = some dot then some [[]] else none
  | first :: rest =>
    let kept := (first :: rest).dropLast.rdropWhile isPassed
    some (if path.isAbsolute then absolute kept
      else if path.head? = some dot then dot :: kept
      else if kept = [] then [[]] else kept)

end Path

/-! ## The tree -/

/-- A file, a link to a path, or a directory. -/
inductive Node
  | file
  | link (target : Path)
  | directory (entries : List (Piece × Node))

namespace Node

def child (node : Node) (name : Piece) : Option Node :=
  match node with
  | .directory entries => (entries.find? fun entry => decide (entry.1 = name)).map (·.2)
  | _ => none

def lookup (node : Node) : Place → Option Node
  | [] => some node
  | name :: rest => (node.child name).bind fun next => next.lookup rest

end Node

/-- `std::io::ErrorKind`, as far as it is told apart. -/
inductive IoError
  | notFound
  | notADirectory
  | alreadyExists
  | filesystemLoop
  | other (code : ℕ)
deriving DecidableEq

/-- A tree as a process sees it. -/
structure Disk where
  entries : List (Piece × Node)
  workingDirectory : Place
  /-- Looking a name up in a directory fails for another reason, such as its permissions. -/
  entryFault : Place → Piece → Option ℕ
  /-- The path is refused as a whole, such as for its length or a zero byte. -/
  pathFault : Path → Option ℕ
  /-- How many links a resolution follows. -/
  linkLimit : ℕ

/-- What to do with the last piece: follow it if it is a link, create it if it is missing. -/
structure WalkMode where
  follow : Bool
  create : Bool

/-- Where a resolution ended, and how many links it may still follow. -/
structure Reached where
  place : Place
  links : ℕ
deriving DecidableEq

namespace Disk

variable (disk : Disk)

def lookup (place : Place) : Option Node := (Node.directory disk.entries).lookup place

/-- What a piece is at a directory. -/
inductive Found
  /-- Resolution goes on at a directory. -/
  | directory (place : Place)
  | file
  | link (target : Path)
  | missing
  | fault (code : ℕ)

def find (place : Place) (piece : Piece) : Found :=
  if isPassed piece then .directory place
  else if piece = dotDot then .directory place.dropLast
  else match disk.entryFault place piece with
    | some code => .fault code
    | none =>
      match disk.lookup (place ++ [piece]) with
      | none => .missing
      | some (.directory _) => .directory (place ++ [piece])
      | some .file => .file
      | some (.link target) => .link target

/-- Where the path of a link at a place starts. -/
def linkStart (target : Path) (place : Place) : Place := if target.isAbsolute then [] else place

/-- The pieces are resolved one by one; `follow` goes on with the pieces of a link. -/
def advance (mode : WalkMode) (links : ℕ)
    (follow : Place → List Piece → Except IoError Reached) :
    Place → List Piece → Except IoError Reached
  | place, [] => .ok ⟨place, links⟩
  | place, piece :: rest =>
    match disk.find place piece with
    | .directory next => advance mode links follow next rest
    | .file => if rest = [] then .ok ⟨place ++ [piece], links⟩ else .error .notADirectory
    | .link target =>
      if rest = [] ∧ mode.follow = false then .ok ⟨place ++ [piece], links⟩
      else if target = [[]] then .error .notFound
      else follow (linkStart target place) (target ++ rest)
    | .missing =>
      if rest = [] ∧ mode.create = true then .ok ⟨place ++ [piece], links⟩
      else .error .notFound
    | .fault code => .error (.other code)

/-- Resolution of the pieces from a directory, with a number of links to follow. -/
def walk (mode : WalkMode) : ℕ → Place → List Piece → Except IoError Reached
  | 0 => disk.advance mode 0 fun _ _ => .error .filesystemLoop
  | links + 1 => disk.advance mode (links + 1) (walk mode links)

/-- A system call's resolution of a path. -/
def resolve (mode : WalkMode) (path : Path) : Except IoError Place :=
  match disk.pathFault path with
  | some code => .error (.other code)
  | none =>
    if path = [[]] then .error .notFound
    else (disk.walk mode disk.linkLimit
      (if path.isAbsolute then [] else disk.workingDirectory) path).map (·.place)

/-- `fs::symlink_metadata`, for the place it is about. -/
def symlinkMetadata (path : Path) : Except IoError Place := disk.resolve ⟨false, false⟩ path

/-- `fs::canonicalize`. -/
def canonicalize (path : Path) : Except IoError Place := disk.resolve ⟨true, false⟩ path

end Disk

/-- Ways to open a path. -/
inductive Opening
  /-- Open what exists, to read or write it. -/
  | existing
  /-- Open it, and create it if it is missing (`fs::write`). -/
  | orCreate
  /-- Create it, and fail if there is any entry (`create_new`). -/
  | createNew
deriving DecidableEq

/-- The place that opening a path reads, writes or creates. -/
def Disk.opened (disk : Disk) (opening : Opening) (path : Path) : Except IoError Place :=
  match opening with
  | .existing => disk.resolve ⟨true, false⟩ path
  | .orCreate => disk.resolve ⟨true, true⟩ path
  | .createNew =>
    match disk.symlinkMetadata path with
    | .ok _ => .error .alreadyExists
    | .error _ => disk.resolve ⟨false, true⟩ path

/-! ## Paths -/

/-- Every piece of the place is a name. -/
def IsNames (place : Place) : Prop := ∀ piece ∈ place, isName piece = true

theorem IsNames.append_name {place : Place} (h : IsNames place) {piece : Piece}
    (hpiece : isName piece = true) : IsNames (place ++ [piece]) := by
  intro other hother
  obtain hold | hnew := mem_append.mp hother
  · exact h other hold
  · exact mem_singleton.mp hnew ▸ hpiece

namespace Path

variable {piece : Piece}

theorem isSome_component (h : isPassed piece = false) : (component piece).isSome = true := by
  unfold component
  rw [h]
  simp only [Bool.false_eq_true, if_false]
  split_ifs <;> rfl

theorem component_of_isName (h : isName piece = true) : component piece = some (.normal piece) := by
  obtain ⟨hpassed, hup⟩ := Bool.and_eq_true_iff.mp h
  rw [component, if_neg (by simpa using hpassed), if_neg (by simpa using hup)]

/-- What is taken off at the end are pieces that are passed over. -/
theorem eq_rdropWhile_append (pieces : List Piece) :
    ∃ passed, pieces = pieces.rdropWhile isPassed ++ passed ∧
      ∀ piece ∈ passed, isPassed piece = true := by
  refine ⟨pieces.rtakeWhile isPassed, ?_, fun piece hpiece => ?_⟩
  · exact (rdropWhile_append_rtakeWhile ..).symm
  · exact mem_rtakeWhile_imp hpiece

theorem filterMap_rdropWhile (pieces : List Piece) :
    (pieces.rdropWhile isPassed).filterMap component = pieces.filterMap component := by
  obtain ⟨passed, hpieces, hpassed⟩ := eq_rdropWhile_append pieces
  conv_rhs => rw [hpieces, filterMap_append]
  rw [filterMap_eq_nil_iff.mpr fun piece hpiece =>
    show component piece = none from if_pos (hpassed piece hpiece), append_nil]

theorem components_absolute (body : List Piece) :
    (absolute body).components = .rootDir :: body.filterMap component := by
  unfold absolute
  split_ifs with h
  · rw [h]
    rfl
  · obtain ⟨first, rest, rfl⟩ := exists_cons_of_ne_nil h
    rfl

theorem isAbsolute_absolute (body : List Piece) : (absolute body).isAbsolute = true := by
  unfold absolute
  split_ifs with h
  · rfl
  · obtain ⟨first, rest, rfl⟩ := exists_cons_of_ne_nil h
    rfl

/-- A path begins with a slash, with `.`, or with neither. -/
theorem cases_lead (path : Path) :
    (∃ second rest, path = [] :: second :: rest) ∨ (∃ rest, path = dot :: rest) ∨
      path.isAbsolute = false ∧ path.head? ≠ some dot ∧ path.body = path := by
  rcases path with _ | ⟨_ | ⟨byte, bytes⟩, rest⟩
  · exact .inr (.inr ⟨rfl, by decide, rfl⟩)
  · rcases rest with _ | ⟨second, rest⟩
    · exact .inr (.inr ⟨rfl, by decide, rfl⟩)
    · exact .inl ⟨second, rest, rfl⟩
  · by_cases h : byte :: bytes = dot
    · exact .inr (.inl ⟨rest, by rw [h]⟩)
    · exact Or.inr (Or.inr ⟨rfl, fun hhead => h (Option.some.inj hhead), if_neg h⟩)

/-- A path that begins with neither a slash nor `.` has no parent that does. -/
theorem components_of_isPrefix {path kept : Path} (habsolute : path.isAbsolute = false)
    (hhead : path.head? ≠ some dot) (hkept : kept <+: path) :
    kept.components = kept.filterMap component := by
  obtain ⟨rest, rfl⟩ := hkept
  rcases kept with _ | ⟨_ | ⟨byte, bytes⟩, others⟩
  · rfl
  · rcases others with _ | ⟨second, others⟩
    · rfl
    · cases habsolute
  · have hne : ((byte :: bytes) :: others).head? ≠ some dot := hhead
    rw [components, if_neg hne]
    rfl

/-- The parent has fewer components. -/
theorem length_components_parent {path up : Path} (h : path.parent = some up) :
    up.components.length < path.components.length := by
  unfold parent at h
  split at h
  next hnil =>
    split_ifs at h with hdot
    cases h
    obtain ⟨second, others, rfl⟩ | ⟨others, rfl⟩ | ⟨-, hhead, -⟩ := cases_lead path
    · cases hdot
    · exact Nat.succ_pos _
    · exact absurd hdot hhead
  next first rest hbody =>
    have hne : path.body.rdropWhile isPassed ≠ [] := by
      rw [hbody]
      exact cons_ne_nil _ _
    have hlast := isSome_component (by simpa using rdropWhile_last_not _ _ hne)
    obtain ⟨c, hc⟩ := Option.isSome_iff_exists.mp hlast
    have hsplit := congrArg (List.filterMap component) (dropLast_append_getLast hne)
    rw [filterMap_append, filterMap_rdropWhile, filterMap_cons_some hc, filterMap_nil] at hsplit
    have hfewer := (Nat.lt_succ_self _).trans_eq (length_append.symm.trans (congrArg length hsplit))
    rw [hbody, ← filterMap_rdropWhile (first :: rest).dropLast] at hfewer
    rw [← Option.some.inj h]
    obtain ⟨second, others, rfl⟩ | ⟨others, rfl⟩ | ⟨habsolute, hhead, hsame⟩ := cases_lead path
    · rw [if_pos (show isAbsolute _ = true from rfl), components_absolute]
      exact Nat.succ_lt_succ hfewer
    · exact Nat.succ_lt_succ hfewer
    · have hprefix : (first :: rest).dropLast.rdropWhile isPassed <+: path := by
        refine (List.rdropWhile_prefix ..).trans ((List.dropLast_prefix _).trans ?_)
        rw [← hbody, hsame]
        exact rdropWhile_prefix ..
      rw [hsame] at hfewer
      rw [if_neg (by rw [habsolute]; exact Bool.false_ne_true), if_neg hhead,
        components_of_isPrefix habsolute hhead (prefix_refl path)]
      split_ifs with hnil
      · rw [hnil] at hfewer
        exact hfewer
      · rw [components_of_isPrefix habsolute hhead hprefix]
        exact hfewer

/-- `Path::ancestors`. -/
def ancestors (path : Path) : List Path :=
  path :: match _h : path.parent with
    | none => []
    | some up => ancestors up
termination_by path.components.length
decreasing_by exact length_components_parent ‹_›

/-- What `parent` takes off a path from the top: a component, and what is passed over on
both sides of it. -/
theorem parent_absolute {body : List Piece} {up : Path} (h : (absolute body).parent = some up) :
    ∃ kept passed piece after, up = absolute kept ∧ body = kept ++ passed ++ piece :: after ∧
      (∀ other ∈ passed, isPassed other = true) ∧ isPassed piece = false ∧
      ∀ other ∈ after, isPassed other = true := by
  have hbody : body ≠ [] := by
    rintro rfl
    cases h
  obtain ⟨first, rest, rfl⟩ := exists_cons_of_ne_nil hbody
  unfold parent at h
  have hsame : (absolute (first :: rest)).body = first :: rest := rfl
  rw [hsame] at h
  obtain ⟨after, hafter, hpassedAfter⟩ := eq_rdropWhile_append (first :: rest)
  split at h
  next => cases h
  next first' rest' hdrop =>
    have hne : (first :: rest).rdropWhile isPassed ≠ [] := by
      rw [hdrop]
      exact cons_ne_nil _ _
    have hlast := rdropWhile_last_not _ _ hne
    obtain ⟨passed, hpassed, hall⟩ := eq_rdropWhile_append (first' :: rest').dropLast
    refine ⟨_, passed, ((first :: rest).rdropWhile isPassed).getLast hne, after,
      (Option.some.inj h).symm.trans (if_pos rfl), ?_, hall, by simpa using hlast, hpassedAfter⟩
    calc first :: rest = (first :: rest).rdropWhile isPassed ++ after := hafter
      _ = (((first :: rest).rdropWhile isPassed).dropLast ++
            [((first :: rest).rdropWhile isPassed).getLast hne]) ++ after := by
          rw [dropLast_append_getLast hne]
      _ = _ := by
          rw [append_assoc, singleton_append]
          congr 1
          rw [hdrop]
          exact hpassed

end Path

/-! ## Lookup -/

theorem Node.lookup_append (node : Node) (place more : Place) :
    node.lookup (place ++ more) = (node.lookup place).bind fun next => next.lookup more := by
  induction place generalizing node with
  | nil => rfl
  | cons name rest ih =>
    simp only [cons_append, Node.lookup]
    cases node.child name with
    | none => rfl
    | some next => exact ih next

namespace Disk

variable {disk : Disk} {mode : WalkMode} {links : ℕ} {place : Place}

/-- There is a directory at the place. -/
def IsDirectory (disk : Disk) (place : Place) : Prop :=
  ∃ entries, disk.lookup place = some (.directory entries)

theorem isDirectory_nil (disk : Disk) : disk.IsDirectory [] := ⟨_, rfl⟩

/-- What is above a directory is one. -/
theorem IsDirectory.dropLast (h : disk.IsDirectory place) : disk.IsDirectory place.dropLast := by
  induction place using List.reverseRecOn with
  | nil => exact h
  | append_singleton place name _ =>
    obtain ⟨entries, h⟩ := h
    rw [dropLast_concat]
    unfold lookup at h
    rw [Node.lookup_append] at h
    obtain ⟨node, hnode, hchild⟩ := Option.bind_eq_some_iff.mp h
    cases node with
    | directory entries' => exact ⟨entries', hnode⟩
    | file | link => cases hchild

variable {piece : Piece} {pieces : List Piece} {r : Reached}

/-- The directories a piece can lead to. -/
theorem find_directory {next : Place} (h : disk.find place piece = .directory next) :
    next = place ∨ next = place.dropLast ∨
      isName piece ∧ disk.IsDirectory (place ++ [piece]) ∧ next = place ++ [piece] := by
  unfold find at h
  split_ifs at h with hpassed hup
  · exact .inl (Found.directory.inj h).symm
  · exact .inr (.inl (Found.directory.inj h).symm)
  · split at h
    · cases h
    · split at h <;> cases h
      exact .inr (.inr ⟨by simp [isName, hpassed, hup], ⟨_, ‹_›⟩, rfl⟩)

/-! ## Resolution -/

/-- The pieces of a link from a place, with the links left after it. -/
def jump (disk : Disk) (mode : WalkMode) : ℕ → Place → List Piece → Except IoError Reached
  | 0 => fun _ _ => .error .filesystemLoop
  | links + 1 => disk.walk mode links

theorem walk_eq (mode : WalkMode) (links : ℕ) :
    disk.walk mode links = disk.advance mode links (disk.jump mode links) := by
  cases links <;> rfl

@[simp] theorem walk_nil : disk.walk mode links place [] = .ok ⟨place, links⟩ := by
  rw [walk_eq]
  rfl

/-- One piece. -/
theorem walk_cons (piece : Piece) (rest : List Piece) : disk.walk mode links place (piece :: rest) =
      match disk.find place piece with
      | .directory next => disk.walk mode links next rest
      | .file => if rest = [] then .ok ⟨place ++ [piece], links⟩ else .error .notADirectory
      | .link target =>
        if rest = [] ∧ mode.follow = false then .ok ⟨place ++ [piece], links⟩
        else if target = [[]] then .error .notFound
        else disk.jump mode links (linkStart target place) (target ++ rest)
      | .missing =>
        if rest = [] ∧ mode.create = true then .ok ⟨place ++ [piece], links⟩
        else .error .notFound
      | .fault code => .error (.other code) := by
  rw [walk_eq]
  rfl

theorem walk_passed {rest : List Piece} (h : isPassed piece = true) :
    disk.walk mode links place (piece :: rest) = disk.walk mode links place rest := by
  rw [walk_cons, find, if_pos h]

theorem walk_all_passed {passed rest : List Piece} (h : ∀ piece ∈ passed, isPassed piece = true) :
    disk.walk mode links place (passed ++ rest) = disk.walk mode links place rest := by
  induction passed with
  | nil => rfl
  | cons piece passed ih =>
    rw [cons_append, walk_passed (h piece mem_cons_self)]
    exact ih fun other hother => h other (mem_cons_of_mem _ hother)

/-- Induction on the number of links and then on the pieces. -/
theorem walk_induction {motive : ℕ → Place → List Piece → Prop}
    (nil : ∀ links place, motive links place [])
    (cons : ∀ links place piece rest, (∀ next, motive links next rest) →
      (∀ fewer next pieces, links = fewer + 1 → motive fewer next pieces) →
      motive links place (piece :: rest)) (links : ℕ) (place : Place) (pieces : List Piece) :
    motive links place pieces := by
  induction links generalizing place pieces with
  | zero =>
    induction pieces generalizing place with
    | nil => exact nil 0 place
    | cons piece rest ih => exact cons 0 place piece rest ih fun _ _ _ h => by cases h
  | succ links ihl =>
    induction pieces generalizing place with
    | nil => exact nil _ place
    | cons piece rest ih =>
      refine cons _ place piece rest ih fun fewer next pieces h => ?_
      cases h
      exact ihl next pieces

/-- To resolve some pieces after others is to resolve them from the directory the others
lead to. A file has nothing below it, and what cannot be resolved cannot be resolved
further. -/
theorem walk_append (mode : WalkMode) (links : ℕ) (pieces : List Piece) {more : List Piece}
    (hmore : more ≠ []) (hplace : disk.IsDirectory place) :
    match disk.walk ⟨true, false⟩ links place pieces with
    | .ok r => (disk.IsDirectory r.place ∧
        disk.walk mode links place (pieces ++ more) = disk.walk mode r.links r.place more) ∨
      (¬ disk.IsDirectory r.place ∧
        disk.walk mode links place (pieces ++ more) = .error .notADirectory)
    | .error error => disk.walk mode links place (pieces ++ more) = .error error := by
  induction links, place, pieces using walk_induction with
  | nil links place =>
    rw [walk_nil]
    exact .inl ⟨hplace, rfl⟩
  | cons links place piece rest ihrest ihlinks =>
    rw [cons_append, walk_cons, walk_cons]
    have hne : ¬ (rest ++ more = []) := fun h => hmore (append_eq_nil_iff.mp h).2
    cases hfind : disk.find place piece with
    | directory next =>
      obtain rfl | rfl | ⟨-, hnext, rfl⟩ := find_directory hfind
      · exact ihrest _ hplace
      · exact ihrest _ hplace.dropLast
      · exact ihrest _ hnext
    | file =>
      simp only [hne, if_false]
      split_ifs
      · refine .inr ⟨?_, trivial⟩
        rintro ⟨entries, hentries⟩
        unfold find at hfind
        split_ifs at hfind
        rw [hentries] at hfind
        split at hfind <;> cases hfind
      · rfl
    | link target =>
      simp only [hne, false_and, and_false, if_false, Bool.true_eq_false]
      split_ifs
      · rfl
      · cases links with
        | zero => rfl
        | succ fewer =>
          rw [← append_assoc]
          refine ihlinks fewer _ _ rfl ?_
          unfold linkStart
          split_ifs
          · exact isDirectory_nil disk
          · exact hplace
    | missing => simp [hne]
    | fault code => rfl

/-- What exists is not created. -/
theorem walk_create {follow : Bool} (h : disk.walk ⟨follow, false⟩ links place pieces = .ok r) :
    disk.walk ⟨follow, true⟩ links place pieces = .ok r := by
  induction links, place, pieces using walk_induction with
  | nil links place =>
    rw [walk_nil] at h ⊢
    exact h
  | cons links place piece rest ihrest ihlinks =>
    rw [walk_cons] at h ⊢
    cases hfind : disk.find place piece with simp only [hfind] at h ⊢
    | directory next => exact ihrest next h
    | file => exact h
    | link target =>
      split_ifs at h ⊢
      · exact h
      · cases links with
        | zero => cases h
        | succ fewer => exact ihlinks fewer _ _ rfl h
    | missing =>
      rw [if_neg (by simp)] at h
      cases h
    | fault code => cases h

/-- Nothing depends on the mode when the last piece is one that resolution passes over. -/
theorem walk_append_passed (mode mode' : WalkMode) (hpiece : isPassed piece = true) :
    disk.walk mode links place (pieces ++ [piece]) =
      disk.walk mode' links place (pieces ++ [piece]) := by
  induction links, place, pieces using walk_induction with
  | nil links place =>
    rw [nil_append, walk_passed hpiece, walk_passed hpiece, walk_nil, walk_nil]
  | cons links place first rest ihrest ihlinks =>
    rw [cons_append, walk_cons, walk_cons]
    have hne : ¬ (rest ++ [piece] = []) := fun h => by
      cases (append_eq_nil_iff.mp h).2
    cases hfind : disk.find place first with
    | directory next => exact ihrest next
    | file | fault => rfl
    | link target =>
      simp only [hne, false_and, if_false]
      split_ifs
      · rfl
      · cases links with
        | zero => rfl
        | succ fewer =>
          rw [← append_assoc]
          exact ihlinks fewer _ _ rfl
    | missing =>
      simp

/-- Resolution ends at a place that has a path. -/
theorem isNames_of_walk (hplace : IsNames place) (h : disk.walk mode links place pieces = .ok r) :
    IsNames r.place := by
  induction links, place, pieces using walk_induction with
  | nil links place =>
    rw [walk_nil] at h
    cases h
    exact hplace
  | cons links place piece rest ihrest ihlinks =>
    rw [walk_cons] at h
    have hlast : (∀ next, disk.find place piece ≠ .directory next) →
        IsNames (place ++ [piece]) := by
      intro hne
      apply hplace.append_name
      unfold find at hne
      by_cases hpassed : isPassed piece = true
      · exact absurd (if_pos hpassed) (hne place)
      · rw [if_neg hpassed] at hne
        by_cases hup : piece = dotDot
        · exact absurd (if_pos hup) (hne place.dropLast)
        · simp [isName, hpassed, hup]
    cases hfind : disk.find place piece with simp only [hfind] at h
    | directory next =>
      refine ihrest next ?_ h
      obtain rfl | rfl | ⟨hname, -, rfl⟩ := find_directory hfind
      · exact hplace
      · exact fun other hother => hplace other (mem_of_mem_dropLast hother)
      · exact hplace.append_name hname
    | file | missing =>
      split_ifs at h
      cases h
      exact hlast fun next hnext => by cases hfind.symm.trans hnext
    | link target =>
      split_ifs at h
      · cases h
        exact hlast fun next hnext => by cases hfind.symm.trans hnext
      · cases links with
        | zero => cases h
        | succ fewer =>
          refine ihlinks fewer _ _ rfl ?_ h
          unfold linkStart
          split_ifs
          · exact fun _ hnil => by cases hnil
          · exact hplace
    | fault code =>
      cases h

end Disk

end Dbflux.Lib.Files
