import Dbflux.Lib.Ensures
import Dbflux.Lib.PathWalk

/-!
# The scripts folder

`resolve_in_scripts_root`, `ensure_resolves_inside_root` and `validate_script_file_name`
(`dbflux_mcp_server/src/tools/scripts.rs`, lines 513–581) and the path that
`create_script_impl` builds (lines 683–718), over the paths and trees of `Lib.PathWalk`.
A path that does not exist is judged by the deepest part of it that does: the first of the
path and its ancestors with an entry on disk must lead into the root.

Results:
* `judged_of_ensure`: an accepted path leads into the root, or ends in a name that is
  missing in a directory inside the root, or leads nowhere, whatever follows it.
* `opened_inside_root`: what opening an accepted path reads, writes or creates lies
  inside the root.
-/

namespace Dbflux.Mcp.Scripts

open Dbflux.Lib Dbflux.Lib.Files List
open Dbflux.Lib.Files.Path (absolute ofText)

/-! ## The checks -/

def outsideScriptsRoot : String := "Path is outside scripts root"

section Model

variable (disk : Disk) (describe : IoError → String)

def resolveError (error : IoError) : String := "Failed to resolve script path: " ++ describe error

/-- The loop of `ensure_resolves_inside_root` over the candidates. -/
def ensureCandidates (root : Path) : List Path → Except String Unit
  | [] => .error outsideScriptsRoot
  | candidate :: rest =>
    match disk.symlinkMetadata candidate with
    | .ok _ =>
      match disk.canonicalize candidate with
      | .ok resolved =>
        if (absolute resolved).startsWith root then .ok () else .error outsideScriptsRoot
      | .error error =>
        if error = .notFound then .error outsideScriptsRoot
        else .error (resolveError describe error)
    | .error error =>
      if error = .notFound then ensureCandidates root rest
      else .error (resolveError describe error)

/-- `ensure_resolves_inside_root` (lines 541–562). -/
def ensureResolvesInsideRoot (root path : Path) : Except String Unit :=
  ensureCandidates disk describe root path.ancestors

def isPlain : Path.Component → Bool
  | .normal _ | .curDir => true
  | _ => false

/-- `resolve_in_scripts_root` (lines 518–531). -/
def resolveInScriptsRoot (root : Path) (relative : List UInt8) : Except String Path :=
  if !(ofText relative).components.all isPlain then .error outsideScriptsRoot
  else do
    let fullPath := root.join (ofText relative)
    ensureResolvesInsideRoot disk describe root fullPath
    return fullPath

def isSingleSegment (value : List UInt8) : Bool :=
  match (ofText value).components with
  | [.normal _] => true
  | _ => false

/-- `validate_script_file_name` (lines 565–581). -/
def validateScriptFileName (name extension : List UInt8) : Except String Unit :=
  if !isSingleSegment name || !isSingleSegment extension then
    .error "Script name and extension must not contain path separators"
  else .ok ()

/-- The file name of a new script: `name`, with the extension unless it has a dot. -/
def scriptFileName (name extension : List UInt8) : List UInt8 :=
  if 46 ∈ name then name else name ++ 46 :: extension

def resolveFolder (root : Path) : Option (List UInt8) → Except String (Option Path)
  | none => .ok none
  | some folderPath => (resolveInScriptsRoot disk describe root folderPath).map some

/-- The path `create_script_impl` writes (lines 698–718). -/
def createScriptPath (root : Path) (name extension : List UInt8) (folder : Option (List UInt8)) :
    Except String Path := do
  validateScriptFileName name extension
  let parent ← resolveFolder disk describe root folder
  let path := (parent.getD root).join (ofText (scriptFileName name extension))
  ensureResolvesInsideRoot disk describe root path
  return path

end Model

/-! ## Resolution of an accepted path -/

section Judged

variable {disk : Disk} {describe : IoError → String} {root : Place}

theorem walk_absolute (mode : WalkMode) (links : ℕ) (body : List Piece) :
    disk.walk mode links [] (absolute body) = disk.walk mode links [] body := by
  unfold absolute
  rw [Disk.walk_passed (by rfl)]
  split_ifs with h
  · rw [h, Disk.walk_passed (by rfl)]
  · rfl

theorem absolute_ne_empty (body : List Piece) : absolute body ≠ [[]] := by
  unfold absolute
  split_ifs with h
  · decide
  · exact fun heq => h (List.cons.inj heq).2

/-- A call that resolves a path from the top goes through its pieces. -/
theorem resolve_absolute (disk : Disk) (mode : WalkMode) (body : List Piece) :
    (∃ code, disk.resolve mode (absolute body) = .error (.other code)) ∨
      disk.resolve mode (absolute body) =
        (disk.walk mode disk.linkLimit [] body).map (·.place) := by
  unfold Disk.resolve
  split
  next code _ => exact .inl ⟨code, rfl⟩
  next =>
    rw [if_neg (absolute_ne_empty body), Path.isAbsolute_absolute, if_pos rfl, walk_absolute]
    exact .inr rfl

variable {body : List Piece} {place : Place}

theorem walk_of_resolve {mode : WalkMode} (h : disk.resolve mode (absolute body) = .ok place) :
    ∃ r, disk.walk mode disk.linkLimit [] body = .ok r ∧ r.place = place := by
  obtain ⟨code, hcode⟩ | hwalk := resolve_absolute disk mode body
  · cases hcode.symm.trans h
  · exact map_eq_ok.mp (hwalk.symm.trans h)

theorem walk_of_notFound {mode : WalkMode}
    (h : disk.resolve mode (absolute body) = .error .notFound) :
    disk.walk mode disk.linkLimit [] body = .error .notFound := by
  obtain ⟨code, hcode⟩ | hwalk := resolve_absolute disk mode body
  · cases hcode.symm.trans h
  · rw [h] at hwalk
    cases hr : disk.walk mode disk.linkLimit [] body with rw [hr] at hwalk
    | error error => rw [Except.error.inj hwalk]
    | ok r => cases hwalk

/-- How an accepted path resolves. -/
inductive Judged (disk : Disk) (root : Place) (body : List Piece) : Prop
  /-- It exists and leads into the root. -/
  | inside (r s : Reached) (hresolved : disk.walk ⟨true, false⟩ disk.linkLimit [] body = .ok r)
      (hentry : disk.walk ⟨false, false⟩ disk.linkLimit [] body = .ok s)
      (hroot : root <+: r.place)
  /-- It is missing: it can at most be created inside the root, and nothing is below it. -/
  | missing
      (hcreated : ∀ mode r, disk.walk mode disk.linkLimit [] body = .ok r → root <+: r.place)
      (hbelow : ∀ mode more, more ≠ [] →
        disk.walk mode disk.linkLimit [] (body ++ more) = .error .notFound)

theorem prefix_of_startsWith (hroot : IsNames root) (hplace : IsNames place)
    (h : (absolute place).startsWith (absolute root) = true) : root <+: place := by
  have hnames : ∀ {names : Place}, IsNames names →
      names.filterMap Path.component = names.map .normal := by
    intro names hnames
    induction names with
    | nil => rfl
    | cons name rest ih =>
      rw [filterMap_cons_some (Path.component_of_isName (hnames name mem_cons_self)),
        ih fun other hother => hnames other (mem_cons_of_mem _ hother), map_cons]
  rw [Path.startsWith, Path.components_absolute, Path.components_absolute, hnames hroot,
    hnames hplace, isPrefixOf_iff_prefix, cons_prefix_cons] at h
  have hinj : Function.Injective Path.Component.normal := fun a b h => by
    cases h
    rfl
  exact (prefix_map_iff_of_injective hinj).mp h.2

/-- A single piece that is not found, in a directory inside the root. -/
theorem created_of_notFound {links : ℕ} {piece : Piece} (hroot : root <+: place)
    (h : disk.walk ⟨false, false⟩ links place [piece] = .error .notFound) (mode : WalkMode) :
    (∀ r, disk.walk mode links place [piece] = .ok r → root <+: r.place) ∧
      ∀ more, more ≠ [] → disk.walk mode links place ([piece] ++ more) = .error .notFound := by
  rw [Disk.walk_cons] at h ⊢
  cases hfind : disk.find place piece with
  | directory | file | link | fault => simp [hfind, Disk.walk_nil] at h
  | missing =>
    refine ⟨fun r hr => ?_, fun more hmore => ?_⟩
    · simp only at hr
      split_ifs at hr
      cases hr
      exact hroot.trans (prefix_append _ _)
    · rw [singleton_append, Disk.walk_cons, hfind]
      exact if_neg fun h => hmore h.1

/-- A component that is not found below a directory inside the root. -/
theorem judged_below {kept passed after : List Piece} {piece : Piece} {r : Reached}
    (hr : disk.walk ⟨true, false⟩ disk.linkLimit [] kept = .ok r) (hroot : root <+: r.place)
    (hpassed : ∀ other ∈ passed, isPassed other = true)
    (hafter : ∀ other ∈ after, isPassed other = true)
    (hmissing : disk.walk ⟨false, false⟩ disk.linkLimit [] (kept ++ passed ++ piece :: after) =
      .error .notFound) :
    Judged disk root (kept ++ passed ++ piece :: after) := by
  have hne : ∀ more, passed ++ piece :: more ≠ [] := fun more h => by
    cases (append_eq_nil_iff.mp h).2
  have hbelow := fun mode more =>
    Disk.walk_append mode disk.linkLimit kept (hne more) (Disk.isDirectory_nil disk)
  simp only [hr] at hbelow
  have hdir : disk.IsDirectory r.place := by
    obtain ⟨hdir, -⟩ | ⟨-, herror⟩ := hbelow ⟨false, false⟩ after
    · exact hdir
    · rw [← append_assoc, hmissing] at herror
      cases herror
  -- what is resolved below `kept` is resolved from where it leads
  have hfrom : ∀ mode more, disk.walk mode disk.linkLimit [] (kept ++ passed ++ piece :: more) =
      disk.walk mode r.links r.place (piece :: more) := by
    intro mode more
    rw [append_assoc]
    obtain ⟨-, h⟩ | ⟨hnot, -⟩ := hbelow mode more
    · rw [h, Disk.walk_all_passed hpassed]
    · exact absurd hdir hnot
  by_cases hlast : after = []
  · subst hlast
    rw [hfrom] at hmissing
    refine .missing (fun mode s hs => ?_) (fun mode more hmore => ?_)
    · rw [hfrom] at hs
      exact (created_of_notFound hroot hmissing mode).1 s hs
    · rw [append_assoc, singleton_append, hfrom]
      exact (created_of_notFound hroot hmissing mode).2 more hmore
  · -- the path ends in a separator or `.`, so every way to open it looks for a directory
    obtain ⟨before, last, rfl⟩ := eq_nil_or_concat' after |>.resolve_left hlast
    rw [← cons_append, ← append_assoc] at hmissing ⊢
    have hall : ∀ mode, disk.walk mode disk.linkLimit []
        (kept ++ passed ++ piece :: before ++ [last]) = .error .notFound := fun mode =>
      (Disk.walk_append_passed mode ⟨false, false⟩ (hafter last (by simp))).trans hmissing
    refine .missing (fun mode s hs => ?_) (fun mode more hmore => ?_)
    · rw [hall mode] at hs
      cases hs
    · have hwalk := Disk.walk_append mode disk.linkLimit
        (kept ++ passed ++ piece :: before ++ [last]) hmore (Disk.isDirectory_nil disk)
      rwa [hall ⟨true, false⟩] at hwalk

variable (hroot : IsNames root)
  (h : ensureResolvesInsideRoot disk describe (absolute root) (absolute body) = .ok ())
include hroot h

/-- **Judging by the deepest existing part.** -/
theorem judged_of_ensure : Judged disk root body := by
  induction hlength : (absolute body).components.length using Nat.strong_induction_on
    generalizing body with
  | h length ih =>
    subst hlength
    rw [ensureResolvesInsideRoot, Path.ancestors, ensureCandidates] at h
    split at h
    next entry hentry =>
      obtain ⟨s, hs, -⟩ := walk_of_resolve hentry
      split at h
      next resolved hresolved =>
        split_ifs at h with hstarts
        obtain ⟨r, hr, rfl⟩ := walk_of_resolve hresolved
        have hnames : IsNames r.place := Disk.isNames_of_walk (fun _ hnil => by cases hnil) hr
        exact .inside r s hr hs (prefix_of_startsWith hroot hnames hstarts)
      next error _ => split_ifs at h
    next error hentry =>
      split_ifs at h with hnotFound
      subst hnotFound
      have hmissing := walk_of_notFound hentry
      split at h
      next => cases h
      next up hup =>
        have hfewer := Path.length_components_parent hup
        obtain ⟨kept, passed, piece, after, rfl, rfl, hpassed, -, hafter⟩ :=
          Path.parent_absolute hup
        cases ih _ hfewer h rfl with
        | inside r s hr hs hinside => exact judged_below hr hinside hpassed hafter hmissing
        | missing hcreated hbelow =>
          have hne : passed ++ piece :: after ≠ [] := fun h => by
            cases (append_eq_nil_iff.mp h).2
          rw [append_assoc]
          refine .missing (fun mode r hr => ?_) (fun mode more hmore => ?_)
          · rw [hbelow mode _ hne] at hr
            cases hr
          · rw [append_assoc]
            exact hbelow mode _ fun h => hne (append_eq_nil_iff.mp h).1

/-- What opening an accepted path touches. -/
theorem inside_of_ensure {opening : Opening} {touched : Place}
    (htouched : disk.opened opening (absolute body) = .ok touched) : root <+: touched := by
  cases judged_of_ensure hroot h with
  | missing hcreated _ =>
    have hmode : ∀ mode, disk.resolve mode (absolute body) = .ok touched → root <+: touched := by
      intro mode hmode
      obtain ⟨r, hr, rfl⟩ := walk_of_resolve hmode
      exact hcreated mode r hr
    cases opening with
    | existing | orCreate => exact hmode _ htouched
    | createNew =>
      unfold Disk.opened at htouched
      dsimp only at htouched
      split at htouched
      · cases htouched
      · exact hmode _ htouched
  | inside r s hr hs hinside =>
    have hcreate := Disk.walk_create hr
    cases opening with
    | existing | orCreate =>
      obtain ⟨r', hr', rfl⟩ := walk_of_resolve htouched
      simp only [hr, hcreate, Except.ok.injEq] at hr'
      exact hr' ▸ hinside
    | createNew =>
      -- there is an entry, so nothing is created
      unfold Disk.opened at htouched
      dsimp only at htouched
      split at htouched
      next => cases htouched
      next error hentry =>
        cases hfault : disk.pathFault (absolute body) with
        | some code =>
          rw [Disk.resolve, hfault] at htouched
          cases htouched
        | none =>
          rw [Disk.symlinkMetadata, Disk.resolve, hfault] at hentry
          rw [if_neg (absolute_ne_empty body), Path.isAbsolute_absolute, if_pos rfl,
            walk_absolute, hs] at hentry
          cases hentry

omit hroot h

/-- What is joined to a path from the top is one. -/
theorem join_absolute (body : List Piece) {other : Path} (hother : other ≠ []) :
    ∃ joined, (absolute body).join other = absolute joined := by
  have hcons : ∀ pieces : List Piece, [] :: pieces ++ other = absolute (pieces ++ other) := by
    intro pieces
    rw [absolute, if_neg fun h => hother (append_eq_nil_iff.mp h).2, cons_append]
  unfold Path.join
  split_ifs with habsolute hlast
  · obtain ⟨second, rest, rfl⟩ | ⟨rest, rfl⟩ | ⟨hnot, -⟩ := Path.cases_lead other
    · exact ⟨second :: rest, rfl⟩
    · cases habsolute
    · rw [habsolute] at hnot
      cases hnot
  · unfold absolute
    split_ifs with hbody
    · exact ⟨_, hcons []⟩
    · rw [dropLast_cons_of_ne_nil hbody]
      exact ⟨_, hcons _⟩
  · unfold absolute
    exact ⟨_, hcons _⟩

theorem ofText_ne_nil (text : List UInt8) : ofText text ≠ [] := splitOn_ne_nil _ _

theorem ensure_of_resolve {relative : List UInt8} {path : Path}
    (h : resolveInScriptsRoot disk describe (absolute root) relative = .ok path) :
    (∃ body, path = absolute body) ∧
      ensureResolvesInsideRoot disk describe (absolute root) path = .ok () := by
  unfold resolveInScriptsRoot at h
  split_ifs at h
  obtain ⟨⟨⟩, hensure, h⟩ := bind_eq_ok.mp h
  cases h
  obtain ⟨body, hbody⟩ := join_absolute root (ofText_ne_nil relative)
  exact ⟨⟨body, hbody⟩, hensure⟩

theorem ensure_of_create {name extension : List UInt8} {folder : Option (List UInt8)} {path : Path}
    (h : createScriptPath disk describe (absolute root) name extension folder = .ok path) :
    (∃ body, path = absolute body) ∧
      ensureResolvesInsideRoot disk describe (absolute root) path = .ok () := by
  obtain ⟨_, -, h⟩ := bind_eq_ok.mp h
  obtain ⟨parent, hparent, h⟩ := bind_eq_ok.mp h
  obtain ⟨⟨⟩, hensure, h⟩ := bind_eq_ok.mp h
  cases h
  refine ⟨?_, hensure⟩
  have habsolute : ∃ body, parent.getD (absolute root) = absolute body := by
    cases folder with
    | none =>
      cases hparent
      exact ⟨root, rfl⟩
    | some folderPath =>
      obtain ⟨resolved, hresolved, rfl⟩ := map_eq_ok.mp hparent
      exact (ensure_of_resolve hresolved).1
  obtain ⟨body, hbody⟩ := habsolute
  rw [hbody]
  exact join_absolute body (ofText_ne_nil _)

end Judged

/-- **Scripts stay inside their folder.** In a tree that does not change, and for a root that
is its own canonical path, whatever a client asks for: a path that the checks accept leads
to no file outside the root, whichever way it is opened, written or created. -/
theorem opened_inside_root {disk : Disk} {describe : IoError → String} {root : Path}
    {place : Place} (hroot : disk.canonicalize root = .ok place)
    (hown : root = absolute place) :
    (∀ relative path, resolveInScriptsRoot disk describe root relative = .ok path →
      ∀ opening touched, disk.opened opening path = .ok touched → place <+: touched) ∧
    ∀ name extension folder path,
      createScriptPath disk describe root name extension folder = .ok path →
      ∀ opening touched, disk.opened opening path = .ok touched → place <+: touched := by
  subst hown
  have hnames : IsNames place := by
    obtain ⟨r, hr, rfl⟩ := walk_of_resolve hroot
    exact Disk.isNames_of_walk (fun _ hnil => by cases hnil) hr
  refine ⟨fun relative path h opening touched htouched => ?_,
    fun name extension folder path h opening touched htouched => ?_⟩
  · obtain ⟨⟨body, rfl⟩, hensure⟩ := ensure_of_resolve h
    exact inside_of_ensure hnames hensure htouched
  · obtain ⟨⟨body, rfl⟩, hensure⟩ := ensure_of_create h
    exact inside_of_ensure hnames hensure htouched

/-! ## A folder with links -/

def bytes (text : String) : List UInt8 := text.toList.map fun c => c.toNat.toUInt8

/-- `/srv/scripts` with a folder, a link out of it and a link to what is missing. -/
def scriptsDisk : Disk where
  entries := [(bytes "srv", .directory [(bytes "scripts", .directory
    [(bytes "reports", .directory []), (bytes "escape", .link (ofText (bytes "../../etc"))),
      (bytes "dangling", .link (ofText (bytes "/etc/new")))])]),
    (bytes "etc", .directory [])]
  workingDirectory := []
  entryFault _ _ := none
  pathFault path := if path.any (fun piece => decide (0 ∈ piece)) then some 22 else none
  linkLimit := 40

theorem opened_inside_root_reports :
    resolveInScriptsRoot scriptsDisk (fun _ => "") (ofText (bytes "/srv/scripts"))
        (bytes "reports/./daily.sql") = .ok (ofText (bytes "/srv/scripts/reports/./daily.sql")) ∧
      scriptsDisk.opened .orCreate (ofText (bytes "/srv/scripts/reports/./daily.sql")) =
        .ok [bytes "srv", bytes "scripts", bytes "reports", bytes "daily.sql"] ∧
      [bytes "srv", bytes "scripts"] <+:
        [bytes "srv", bytes "scripts", bytes "reports", bytes "daily.sql"] := by
  have hresolve : resolveInScriptsRoot scriptsDisk (fun _ => "") (ofText (bytes "/srv/scripts"))
      (bytes "reports/./daily.sql") =
        .ok (ofText (bytes "/srv/scripts/reports/./daily.sql")) := by decide +kernel
  have hopened : scriptsDisk.opened .orCreate (ofText (bytes "/srv/scripts/reports/./daily.sql")) =
        .ok [bytes "srv", bytes "scripts", bytes "reports", bytes "daily.sql"] := by decide +kernel
  exact ⟨hresolve, hopened, (opened_inside_root (by decide +kernel) (by decide +kernel)).1
    _ _ hresolve _ _ hopened⟩

end Dbflux.Mcp.Scripts
