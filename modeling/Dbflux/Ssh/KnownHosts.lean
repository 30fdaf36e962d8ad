import Dbflux.Lib.Lines
import Dbflux.Lib.OrderedMap
import Dbflux.Lib.SplitN

/-!
# The known-hosts file

Models of `load_tofu_known_hosts` and `save_tofu_known_hosts` of
`dbflux_ssh/src/lib.rs` (lines 630–687). The file has one line per host and port,
with the fingerprint behind a second tab. A `BTreeMap<String, String>` is an
`OrderedMap`: the order of texts by their bytes is the one by their characters.

Results:
* `isEntry_of_load`: what is read from any file has the form of an entry.
* `get?_load_save`: a map of such entries is read back as it was written.
-/

namespace Dbflux.Ssh

open Dbflux.Lib List

abbrev Entries := OrderedMap Text Text

/-- One round of the loop of `load_tofu_known_hosts` (lines 643–661). -/
def loadLine (entries : Entries) (line : Text) : Entries :=
  match splitN '\t' 3 line with
  | [host, port, fingerprint] => entries.set (host ++ '\t' :: port) fingerprint
  | _ => entries

/-- `load_tofu_known_hosts` (lines 630–662); the file may be missing. -/
def loadKnownHosts : Option Text → Entries
  | none => .empty
  | some content => (((lines content).map trim).filter (· ≠ [])).foldl loadLine .empty

/-- One round of the loop of `save_tofu_known_hosts` (lines 669–683). -/
def savedLine (entry : Text × Text) : Text :=
  match splitN '\t' 2 entry.1 with
  | [host, port] => host ++ '\t' :: (port ++ '\t' :: (entry.2 ++ ['\n']))
  | _ => []

/-- `save_tofu_known_hosts` (lines 664–687). -/
def saveKnownHosts (entries : Entries) : Text := entries.entries.flatMap savedLine

/-- A host that stands at the start of a line and in front of a tab. -/
structure CleanHost (host : Text) : Prop where
  head : ∃ c rest, host = c :: rest ∧ isWhitespace c = false
  tab : '\t' ∉ host
  lineFeed : '\n' ∉ host

/-- An entry that fills a line. -/
structure IsEntry (entry : Text × Text) : Prop where
  key : ∃ host port, entry.1 = host ++ '\t' :: port ∧ CleanHost host ∧ '\t' ∉ port ∧ '\n' ∉ port
  lineFeed : '\n' ∉ entry.2
  last : ∃ c, entry.2.getLast? = some c ∧ isWhitespace c = false

def AllEntries (entries : Entries) : Prop := ∀ entry ∈ entries.entries, IsEntry entry

variable {entries : Entries}

theorem AllEntries.set (h : AllEntries entries) {key value : Text}
    (hentry : IsEntry (key, value)) : AllEntries (entries.set key value) := by
  intro entry hmem
  obtain rfl | hmem := OrderedMap.mem_place hmem
  · exact hentry
  · exact h entry hmem

/-! ## What is read -/

/-- A line that is not empty and has no white space at its ends holds an entry. -/
theorem isEntry_of_splitN {line host port fingerprint : Text} (hlineFeed : '\n' ∉ line)
    (hhead : ∀ c, line.head? = some c → isWhitespace c = false)
    (hlast : ∀ c, line.getLast? = some c → isWhitespace c = false)
    (h : splitN '\t' 3 line = [host, port, fingerprint]) :
    IsEntry (host ++ '\t' :: port, fingerprint) := by
  have hline : line = host ++ '\t' :: (port ++ '\t' :: fingerprint) := by
    rw [← join_singleton fingerprint, ← join_cons port (by simp), ← join_cons host (by simp),
      ← h, join_splitN]
  have hhost : '\t' ∉ host := not_mem_of_splitN (i := 0) (by rw [h]; rfl) (by decide)
  have hport : '\t' ∉ port := not_mem_of_splitN (i := 1) (by rw [h]; rfl) (by decide)
  rw [hline] at hhead hlast hlineFeed
  have hends : ∀ c, (host ++ '\t' :: (port ++ '\t' :: fingerprint)).getLast? = some c →
      isWhitespace c = false := hlast
  simp only [mem_append, mem_cons, not_or] at hlineFeed
  obtain ⟨hnoHost, -, hnoPort, -, hnoFingerprint⟩ := hlineFeed
  refine ⟨⟨host, port, rfl, ⟨?_, hhost, hnoHost⟩, hport, hnoPort⟩, hnoFingerprint, ?_⟩
  · cases host with
    | nil =>
      have := hhead '\t' rfl
      cases this
    | cons c host => exact ⟨c, host, rfl, hhead c rfl⟩
  · cases hlastOf : fingerprint.getLast? with
    | none =>
      -- without a fingerprint the line would end in a tab
      rw [getLast?_eq_none_iff.mp hlastOf] at hends
      have := hends '\t' (by simp [getLast?_append, getLast?_cons])
      cases this
    | some c =>
      refine ⟨c, rfl, hends c ?_⟩
      simp [getLast?_append, getLast?_cons, hlastOf]

theorem allEntries_foldl (h : AllEntries entries) {texts : List Text}
    (htexts : ∀ line ∈ texts, '\n' ∉ line ∧ (∀ c, line.head? = some c → isWhitespace c = false) ∧
      ∀ c, line.getLast? = some c → isWhitespace c = false) :
    AllEntries (texts.foldl loadLine entries) := by
  induction texts generalizing entries with
  | nil => exact h
  | cons line texts ih =>
    refine ih ?_ fun other hother => htexts other (mem_cons_of_mem _ hother)
    obtain ⟨hlineFeed, hhead, hlast⟩ := htexts line (mem_cons_self ..)
    unfold loadLine
    split
    next host port fingerprint hsplit =>
      exact h.set (isEntry_of_splitN hlineFeed hhead hlast hsplit)
    next => exact h

/-- What is read from a file are entries, whatever the file holds. -/
theorem isEntry_of_load (content : Option Text) : AllEntries (loadKnownHosts content) := by
  cases content with
  | none => exact fun entry hmem => absurd hmem not_mem_nil
  | some content =>
    refine allEntries_foldl (fun entry hmem => absurd hmem not_mem_nil) fun line hline => ?_
    obtain ⟨raw, hraw, rfl⟩ := mem_map.mp (mem_filter.mp hline).1
    exact ⟨fun hmem => not_mem_of_mem_lines hraw (mem_of_mem_trim hmem), fun c hc => head?_trim hc,
      fun c hc => getLast?_trim hc⟩

/-- A host that is not clean is in no file. -/
theorem cleanHost_of_get? {content : Option Text} {host port fingerprint : Text}
    (h : (loadKnownHosts content).get? (host ++ '\t' :: port) = some fingerprint) :
    CleanHost host := by
  have hentry := isEntry_of_load content _ ((OrderedMap.mem_entries_iff _ _ _).mpr h)
  obtain ⟨host', port', heq, hclean, hport', -⟩ := hentry.key
  have hsplit := congrArg (splitN '\t' 3) heq
  by_cases hhost : '\t' ∈ host
  · -- then the text would have two tabs
    obtain ⟨first, rest, rfl, hfirst⟩ := eq_append_cons_of_mem hhost
    rw [append_assoc, cons_append, splitN_append 1 _ hfirst,
      splitN_append 1 _ hclean.tab, splitN_of_not_mem 1 hport'] at hsplit
    obtain ⟨-, htail⟩ := List.cons.inj hsplit
    have hjoin := congrArg (join '\t') htail
    rw [join_splitN, join_singleton] at hjoin
    exact absurd (by simp [← hjoin]) hport'
  · rw [splitN_append 1 _ hhost, splitN_append 1 _ hclean.tab] at hsplit
    rw [(List.cons.inj hsplit).1]
    exact hclean

/-! ## What is written -/

/-- The line of an entry without its line feed. -/
def entryLine (entry : Text × Text) : Text := entry.1 ++ '\t' :: entry.2

theorem savedLine_eq {entry : Text × Text} (h : IsEntry entry) :
    savedLine entry = entryLine entry ++ ['\n'] := by
  obtain ⟨host, port, hkey, hclean, hport, -⟩ := h.key
  have hsplit : splitN '\t' 2 entry.1 = [host, port] := by
    rw [hkey, splitN_append 0 port hclean.tab, splitN_of_not_mem 0 hport]
  rw [savedLine, hsplit, entryLine, hkey]
  simp

theorem dropReturn_eq_self {line : Text} {c : Char} (hlast : line.getLast? = some c)
    (hc : isWhitespace c = false) : dropReturn line = line := by
  apply if_neg
  rw [hlast]
  rintro heq
  cases heq
  exact absurd hc (by decide)

section

variable {entry : Text × Text} (h : IsEntry entry)

include h

theorem IsEntry.lineFeed_notMem : '\n' ∉ entryLine entry := by
  obtain ⟨host, port, hkey, hclean, -, hport⟩ := h.key
  have htab : '\n' ≠ '\t' := by decide
  simp [entryLine, hkey, hclean.lineFeed, hport, h.lineFeed, htab]

theorem IsEntry.getLast?_line : ∃ c, (entryLine entry).getLast? = some c ∧ isWhitespace c = false := by
  obtain ⟨c, hlast, hc⟩ := h.last
  refine ⟨c, ?_, hc⟩
  simp [entryLine, getLast?_append, getLast?_cons, hlast]

theorem IsEntry.trim_line : trim (entryLine entry) = entryLine entry := by
  obtain ⟨host, port, hkey, ⟨⟨c, rest, rfl, hc⟩, -, -⟩, -⟩ := h.key
  obtain ⟨d, hlast, hd⟩ := h.getLast?_line
  apply trim_eq_self
  · intro e he
    rw [entryLine, hkey] at he
    cases he
    exact hc
  · intro e he
    rw [hlast] at he
    cases he
    exact hd

theorem IsEntry.loadLine_line (entries : Entries) :
    loadLine entries (entryLine entry) = entries.set entry.1 entry.2 := by
  obtain ⟨host, port, hkey, hclean, hport, -⟩ := h.key
  have hsplit : splitN '\t' 3 (entryLine entry) = [host, port, entry.2] := by
    rw [entryLine, hkey, append_assoc, cons_append, splitN_append 1 _ hclean.tab,
      splitN_append 0 _ hport]
    rfl
  simp [loadLine, hsplit, hkey]

end

/-- The lines of a written map are those of its entries. -/
theorem lines_flatMap {entries : List (Text × Text)} (h : ∀ entry ∈ entries, IsEntry entry) :
    ((lines (entries.flatMap savedLine)).map trim).filter (· ≠ []) = entries.map entryLine := by
  induction entries with
  | nil => rfl
  | cons entry entries ih =>
    have hentry := h entry (mem_cons_self ..)
    obtain ⟨c, hlast, hc⟩ := hentry.getLast?_line
    have hne : entryLine entry ≠ [] := by
      rintro hnil
      rw [hnil] at hlast
      cases hlast
    rw [flatMap_cons, savedLine_eq hentry, append_assoc, singleton_append,
      lines_append _ hentry.lineFeed_notMem, dropReturn_eq_self hlast hc, map_cons,
      hentry.trim_line, filter_cons_of_pos (by simpa using hne),
      ih fun other hother => h other (mem_cons_of_mem _ hother), map_cons]

/-- Setting the entries of a sorted list one by one. -/
theorem get?_foldl_set {entries : List (Text × Text)} (h : ∀ entry ∈ entries, IsEntry entry)
    (hsorted : entries.Pairwise fun a b => a.1 < b.1) (start : Entries) (key : Text) :
    ((entries.map entryLine).foldl loadLine start).get? key =
      (OrderedMap.find key entries).or (start.get? key) := by
  induction entries generalizing start with
  | nil => rfl
  | cons entry entries ih =>
    obtain ⟨hfirst, hrest⟩ := pairwise_cons.mp hsorted
    rw [map_cons, foldl_cons, (h entry (mem_cons_self ..)).loadLine_line,
      ih (fun other hother => h other (mem_cons_of_mem _ hother)) hrest, OrderedMap.get?_set,
      OrderedMap.find]
    by_cases hkey : key = entry.1
    · -- no later entry has the key
      have hnone : OrderedMap.find key entries = none := by
        rw [Option.eq_none_iff_forall_ne_some]
        intro value hfind
        have hmem := (OrderedMap.mem_entries_iff key value ⟨entries, hrest⟩).mpr hfind
        exact absurd (hfirst _ hmem) (by rw [hkey]; exact lt_irrefl _)
      rw [hnone, if_pos hkey, if_pos hkey.symm]
      rfl
    · rw [if_neg hkey, if_neg (Ne.symm hkey)]

/-- **A written map is read back.** -/
theorem get?_load_save (h : AllEntries entries) (key : Text) :
    (loadKnownHosts (some (saveKnownHosts entries))).get? key = entries.get? key := by
  simp only [loadKnownHosts, saveKnownHosts]
  rw [lines_flatMap h, get?_foldl_set h entries.sorted]
  exact Option.or_none

end Dbflux.Ssh
