import Dbflux.Lib.Numeral
import Dbflux.Lib.Transition
import Dbflux.Ssh.KnownHosts

/-!
# Trust on first use

Models of `host_key_matches_stored` and `verify_or_store_host_key`
(`dbflux_ssh/src/lib.rs`, lines 487–537). An attempt reads the whole known-hosts
file, compares the key of the server with the entry of its host and port, and, when
there is none or one in the old format, writes the whole file back. Attempts run
beside one another, so a state has the file and how far each attempt is. SHA-256 and
base64 are a parameter without collisions.

Results:
* `Step.stored`: an accepted attempt's fingerprint is in the file, as long as no file
  is written over by an attempt that read an older one.
* `pinned_iff`: in such runs pins hold for exactly the hosts that the format of the
  file can keep.
* `lost_pin`: an attempt for another host writes an older file back, and a second key
  is accepted.
-/

namespace Dbflux.Ssh

open Dbflux.Lib

abbrev KeyBytes := List UInt8

/-- The base64 text of a key's digest. -/
structure DigestText where
  encode : KeyBytes → Text
  encode_injective : Function.Injective encode
  not_whitespace : ∀ key, ∀ c ∈ encode key, isWhitespace c = false

def fingerprintLabel : Text := "SHA256:".toList

/-- `hex_encode` (lines 689–705). -/
def hexEncode (bytes : KeyBytes) : Text :=
  bytes.flatMap fun byte =>
    ["0123456789abcdef".toList.getD (byte.toNat / 16) '0',
      "0123456789abcdef".toList.getD (byte.toNat % 16) '0']

/-- `HostKeyMatch` (lines 464–472). -/
inductive HostKeyMatch
  | newFormat
  | legacyHex
  | mismatch
deriving DecidableEq

/-- A connection attempt: what it asks for and the key the server presents. -/
structure Attempt where
  host : Text
  port : UInt16
  key : KeyBytes

/-- `format!("{}\t{}", host, port)`. -/
def Attempt.entryKey (a : Attempt) : Text := a.host ++ '\t' :: decimal a.port.toNat

section Model

variable (digest : DigestText)

/-- `sha256_base64_fingerprint` (lines 476–478). -/
def fingerprint (key : KeyBytes) : Text := fingerprintLabel ++ digest.encode key

/-- `host_key_matches_stored` (lines 487–497). -/
def hostKeyMatchesStored (stored : Text) (key : KeyBytes) : HostKeyMatch :=
  if stored = fingerprint digest key then .newFormat
  else if !fingerprintLabel.isPrefixOf stored ∧ stored = hexEncode key then .legacyHex
  else .mismatch

/-- How far an attempt is. `seen` is the file it read. -/
inductive Progress
  | waiting
  | loaded (seen : Option Text)
  | storing (seen : Option Text) (entries : Entries)
  | accepted
  | rejected (message : Text)

/-- What `verify_or_store_host_key` does once it has read the file (lines 508–526). -/
def verdict (a : Attempt) (seen : Option Text) : Progress :=
  let entries := loadKnownHosts seen
  let storing := Progress.storing seen (entries.set a.entryKey (fingerprint digest a.key))
  match entries.get? a.entryKey with
  | none => storing
  | some existing =>
    match hostKeyMatchesStored digest existing a.key with
    | .newFormat => .accepted
    | .legacyHex => storing
    | .mismatch => .rejected ("SSH host key mismatch for ".toList ++ a.host ++
        ':' :: decimal a.port.toNat ++ " (possible MITM attack)".toList)

/-- The file, and how far the attempts are. -/
structure State where
  file : Option Text
  progress : ℕ → Progress

/-- The steps an attempt takes. -/
inductive Event
  | load (i : ℕ)
  | check (i : ℕ)
  | save (i : ℕ)

def State.moved (s : State) (i : ℕ) (p : Progress) : State :=
  { s with progress := Function.update s.progress i p }

/-- One step of one attempt. -/
def step (attempts : ℕ → Attempt) (s : State) : Event → Option State
  | .load i =>
    match s.progress i with
    | .waiting => some (s.moved i (.loaded s.file))
    | _ => none
  | .check i =>
    match s.progress i with
    | .loaded seen => some (s.moved i (verdict digest (attempts i) seen))
    | _ => none
  | .save i =>
    match s.progress i with
    | .storing _ entries =>
      some { s.moved i .accepted with file := some (saveKnownHosts entries) }
    | _ => none

def Step (attempts : ℕ → Attempt) (s : State) (e : Event) (t : State) : Prop :=
  step digest attempts s e = some t

end Model

/-- No attempt has begun. -/
def State.start (file : Option Text) : State := ⟨file, fun _ => .waiting⟩

def State.isAccepted (s : State) (i : ℕ) : Prop := s.progress i = .accepted

/-- Attempts for one host and port that were accepted presented one key. -/
def Pinned (attempts : ℕ → Attempt) (s : State) : Prop :=
  ∀ i j, s.isAccepted i → s.isAccepted j → (attempts i).host = (attempts j).host →
    (attempts i).port = (attempts j).port → (attempts i).key = (attempts j).key

/-- A file is written over only by an attempt that read it. -/
def UpToDate (s : State) : Event → Prop
  | .save i => ∀ seen entries, s.progress i = .storing seen entries → s.file = seen
  | _ => True

/-! ## What one attempt does -/

section Verdict

variable {digest : DigestText} {a : Attempt} {seen : Option Text}

/-- An entry that holds a fingerprint. -/
def IsFingerprint (text : Text) : Prop := fingerprintLabel.isPrefixOf text = true

theorem isFingerprint (key : KeyBytes) : IsFingerprint (fingerprint digest key) :=
  List.isPrefixOf_iff_prefix.mpr (List.prefix_append _ _)

/-- What is stored is the file that was read with the fingerprint in place of nothing
or of an entry in the old format. -/
theorem verdict_storing {seen' : Option Text} {entries : Entries}
    (h : verdict digest a seen = .storing seen' entries) :
    seen' = seen ∧ entries = (loadKnownHosts seen).set a.entryKey (fingerprint digest a.key) ∧
      ∀ stored, (loadKnownHosts seen).get? a.entryKey = some stored → ¬ IsFingerprint stored := by
  unfold verdict at h
  dsimp only at h
  split at h
  next hnone =>
    cases h
    refine ⟨rfl, rfl, fun stored hstored => ?_⟩
    rw [hnone] at hstored
    cases hstored
  next existing hget =>
    unfold hostKeyMatchesStored at h
    split_ifs at h with hnew hhex
    cases h
    refine ⟨rfl, rfl, fun stored hstored => ?_⟩
    rw [hget] at hstored
    cases hstored
    exact Bool.eq_false_iff.mp (Bool.not_eq_true' _ ▸ hhex.1)

theorem isEntry_of_clean (h : CleanHost a.host) :
    IsEntry (a.entryKey, fingerprint digest a.key) := by
  have hspace : ∀ c ∈ fingerprint digest a.key, isWhitespace c = false := by
    intro c hc
    obtain hmem | hmem := List.mem_append.mp hc
    · exact Bool.eq_false_iff.mpr fun hspace =>
        absurd (List.any_eq_true.mpr ⟨c, hmem, hspace⟩) (by decide)
    · exact digest.not_whitespace a.key c hmem
  have hdigits : ∀ c ∈ decimal a.port.toNat, isAsciiDigit c := fun c hc =>
    isAsciiDigit_of_mem_decimal hc
  refine ⟨⟨a.host, decimal a.port.toNat, rfl, h, ?_, ?_⟩, ?_, ?_⟩
  · exact fun hmem => absurd (hdigits _ hmem) (by decide)
  · exact fun hmem => absurd (hdigits _ hmem) (by decide)
  · exact fun hmem => absurd (hspace _ hmem) (by decide)
  · have hne : fingerprint digest a.key ≠ [] := List.append_ne_nil_of_left_ne_nil (by decide) _
    exact ⟨_, List.getLast?_eq_some_getLast hne, hspace _ (List.getLast_mem hne)⟩

end Verdict

/-! ## Runs -/

section Runs

variable {digest : DigestText} {attempts : ℕ → Attempt}

/-- What is read from `old` as a fingerprint is read from `new` as well. -/
def KeepsFingerprints (old new : Option Text) : Prop :=
  ∀ key stored, IsFingerprint stored → (loadKnownHosts old).get? key = some stored →
    (loadKnownHosts new).get? key = some stored

/-- What holds between the file and the attempts as long as saves are up to date. -/
structure Stored (digest : DigestText) (attempts : ℕ → Attempt) (s : State) : Prop where
  accepted : ∀ i, s.isAccepted i →
    (loadKnownHosts s.file).get? (attempts i).entryKey = some (fingerprint digest (attempts i).key)
  loaded : ∀ i seen, s.progress i = .loaded seen → KeepsFingerprints seen s.file
  storing : ∀ i seen entries, s.progress i = .storing seen entries →
    verdict digest (attempts i) seen = .storing seen entries

theorem stored_start (file : Option Text) : Stored digest attempts (.start file) :=
  ⟨nofun, nofun, nofun⟩

variable {a : Attempt}

/-- The file written by a clean host's attempt. -/
theorem get?_saved (hclean : CleanHost a.host) (seen : Option Text) (key : Text) :
    (loadKnownHosts (some (saveKnownHosts
        ((loadKnownHosts seen).set a.entryKey (fingerprint digest a.key))))).get? key =
      if key = a.entryKey then some (fingerprint digest a.key)
      else (loadKnownHosts seen).get? key := by
  rw [get?_load_save ((isEntry_of_load seen).set (isEntry_of_clean hclean)), OrderedMap.get?_set]
  split_ifs <;> rfl

variable {s : State} {i : ℕ}

variable (h : Stored digest attempts s)
include h

/-- A move of one attempt that leaves every fingerprint in the file. -/
theorem Stored.move {p : Progress} {file : Option Text}
    (hkeeps : KeepsFingerprints s.file file)
    (haccepted : p = .accepted → (loadKnownHosts file).get? (attempts i).entryKey =
      some (fingerprint digest (attempts i).key))
    (hloaded : ∀ seen, p = .loaded seen → KeepsFingerprints seen file)
    (hstoring : ∀ seen entries, p = .storing seen entries →
      verdict digest (attempts i) seen = .storing seen entries) :
    Stored digest attempts { s.moved i p with file := file } := by
  have hprogress : ∀ j q, (s.moved i p).progress j = q → j = i ∧ p = q ∨ s.progress j = q := by
    intro j q hj
    simp only [State.moved, Function.update_apply] at hj
    split_ifs at hj with hi
    · exact .inl ⟨hi, hj⟩
    · exact .inr hj
  refine ⟨fun j hj => ?_, fun j seen hj => ?_, fun j seen entries hj => ?_⟩
  · obtain ⟨rfl, hp⟩ | hj := hprogress j _ hj
    · exact haccepted hp
    · exact hkeeps _ _ (isFingerprint _) (h.accepted j hj)
  · obtain ⟨rfl, hp⟩ | hj := hprogress j _ hj
    · exact hloaded seen hp
    · intro key stored hstored hget
      exact hkeeps key stored hstored (h.loaded j seen hj key stored hstored hget)
  · obtain ⟨rfl, hp⟩ | hj := hprogress j _ hj
    · exact hstoring seen entries hp
    · exact h.storing j seen entries hj

theorem Stored.write {entries : Entries}
    (hclean : CleanHost (attempts i).host) (hi : s.progress i = .storing s.file entries) :
    Stored digest attempts { s.moved i .accepted with file := some (saveKnownHosts entries) } := by
  obtain ⟨-, rfl, hold⟩ := verdict_storing (h.storing i s.file entries hi)
  refine h.move ?_ (fun _ => ?_) nofun nofun
  · intro key stored hstored hget
    rw [get?_saved hclean, if_neg, hget]
    rintro rfl
    exact hold stored hget hstored
  · exact (get?_saved hclean _ _).trans (if_pos rfl)

/-- One step. -/
theorem Step.stored (hclean : ∀ i, CleanHost (attempts i).host) {t : State} {e : Event}
    (hstep : restrict (Step digest attempts) UpToDate s e t) :
    Stored digest attempts t := by
  obtain ⟨hstep, hfresh⟩ := hstep
  unfold Step step at hstep
  cases e with dsimp only at hstep
  | load i =>
    split at hstep
    next =>
      cases hstep
      refine h.move (fun _ _ _ hget => hget) nofun (fun seen hseen => ?_) nofun
      cases hseen
      exact fun key stored _ hget => hget
    next => cases hstep
  | check i =>
    split at hstep
    next seen hi =>
      cases hstep
      refine h.move (fun _ _ _ hget => hget) (fun haccepted => ?_) (fun seen' hseen => ?_)
        (fun seen' entries hstoring => ?_)
      · refine h.loaded i seen hi _ _ (isFingerprint _) ?_
        unfold verdict at haccepted
        dsimp only at haccepted
        split at haccepted
        next => cases haccepted
        next existing hget =>
          unfold hostKeyMatchesStored at haccepted
          split_ifs at haccepted with hnew
          rw [hget, hnew]
      · unfold verdict at hseen
        dsimp only at hseen
        split at hseen
        next => cases hseen
        next => split at hseen <;> cases hseen
      · rw [(verdict_storing hstoring).1]
        rw [(verdict_storing hstoring).1] at hstoring
        exact hstoring
    next => cases hstep
  | save i =>
    split at hstep
    next seen entries hi =>
      cases hstep
      obtain rfl := hfresh seen entries hi
      exact h.write (hclean i) hi
    next => cases hstep

theorem Stored.pinned : Pinned attempts s := by
  intro i j hi hj hhost hport
  have hkey : (attempts i).entryKey = (attempts j).entryKey := by
    rw [Attempt.entryKey, Attempt.entryKey, hhost, hport]
  have hstored := h.accepted i hi
  rw [hkey, h.accepted j hj] at hstored
  exact (digest.encode_injective (List.append_cancel_left (Option.some.inj hstored))).symm

omit h

variable (digest) in
/-- One attempt, from reading to writing the file, without another in between. -/
theorem run_alone (hi : s.progress i = .waiting) (hhost : ¬ CleanHost (attempts i).host) :
    ∃ t, Run (restrict (Step digest attempts) UpToDate) s [.load i, .check i, .save i] t ∧
      t.isAccepted i ∧ ∀ j, j ≠ i → t.progress j = s.progress j := by
  set entries := (loadKnownHosts s.file).set (attempts i).entryKey
    (fingerprint digest (attempts i).key) with hentries
  set loaded := s.moved i (.loaded s.file) with hloaded
  set storing := loaded.moved i (.storing s.file entries) with hstoring
  have hload : Step digest attempts s (.load i) loaded := by
    simp [Step, step, hi, hloaded]
  have hatLoaded : loaded.progress i = .loaded s.file := Function.update_self ..
  -- a host that the file does not keep is a first use every time
  have hnone : (loadKnownHosts s.file).get? (attempts i).entryKey = none := by
    rw [Option.eq_none_iff_forall_ne_some]
    intro stored hstored
    exact hhost (cleanHost_of_get? hstored)
  have hcheck : Step digest attempts loaded (.check i) storing := by
    simp [Step, step, hatLoaded, verdict, hnone, hstoring, hentries]
  have hatStoring : storing.progress i = .storing s.file entries := Function.update_self ..
  have hsave : Step digest attempts storing (.save i)
      { storing.moved i .accepted with file := some (saveKnownHosts entries) } := by
    simp [Step, step, hatStoring]
  have hfresh : UpToDate storing (.save i) := by
    intro seen others h
    rw [hatStoring] at h
    cases h
    rfl
  refine ⟨_, (((Run.nil s).snoc ⟨hload, trivial⟩).snoc ⟨hcheck, trivial⟩).snoc ⟨hsave, hfresh⟩,
    Function.update_self .., fun j hj => ?_⟩
  calc Function.update storing.progress i .accepted j
      _ = loaded.progress j := by
        rw [Function.update_of_ne hj]
        exact Function.update_of_ne hj ..
      _ = s.progress j := Function.update_of_ne hj ..

/-- **When pins hold.** In every run of attempts for the hosts of a set in which a file
is written over only by an attempt that read it, exactly if the file can keep every
host of the set. -/
theorem pinned_iff (digest : DigestText) (hosts : Set Text) :
    (∀ attempts : ℕ → Attempt, (∀ i, (attempts i).host ∈ hosts) → ∀ file events s,
      Run (restrict (Step digest attempts) UpToDate) (.start file) events s → Pinned attempts s) ↔
    ∀ host ∈ hosts, CleanHost host := by
  constructor
  · intro h host hmem
    by_contra hhost
    let attempts : ℕ → Attempt := fun i => ⟨host, 22, .replicate i 0⟩
    have hunclean : ∀ i, ¬ CleanHost (attempts i).host := fun _ => hhost
    obtain ⟨t, hfirst, haccepted, hothers⟩ :=
      run_alone digest (s := .start none) (i := 0) rfl (hunclean 0)
    have hwaiting : t.progress 1 = .waiting := hothers 1 (by decide)
    obtain ⟨u, hsecond, haccepted', hothers'⟩ := run_alone digest hwaiting (hunclean 1)
    have hstill : u.isAccepted 0 := (hothers' 0 (by decide)).trans haccepted
    have hpinned := h attempts (fun _ => hmem) none _ u (hfirst.append hsecond)
    exact absurd (hpinned 0 1 hstill haccepted' rfl rfl) (by simp [attempts])
  · intro hclean attempts hhosts file events s hrun
    have hstored : Stored digest attempts s :=
      hrun.invariant (fun s e t h hstep => Step.stored h (fun i => hclean _ (hhosts i)) hstep)
        (stored_start file)
    exact hstored.pinned

end Runs

/-! ## A pin that is lost -/

theorem toNat_digestChar (byte : UInt8) :
    (Char.ofNat (0x4E00 + byte.toNat)).toNat = 0x4E00 + byte.toNat := by
  have hlt := byte.toNat_lt
  rw [Char.toNat_ofNat, if_pos (Or.inl (by omega))]

/-- A digest for examples: one character for every byte. -/
def plainDigest : DigestText where
  encode key := key.map fun byte => Char.ofNat (0x4E00 + byte.toNat)
  encode_injective := by
    refine List.map_injective_iff.mpr fun a b h => ?_
    have hsame := congrArg Char.toNat h
    rw [toNat_digestChar, toNat_digestChar] at hsame
    exact UInt8.toNat_inj.mp (by omega)
  not_whitespace := by
    intro key c hc
    obtain ⟨byte, -, rfl⟩ := List.mem_map.mp hc
    have hlt := byte.toNat_lt
    rw [← Bool.not_eq_true, isWhitespace_iff, toNat_digestChar]
    omega

/-- A server `db`, another one, and a second key for `db`. -/
def dbAttempts : ℕ → Attempt
  | 0 => ⟨"db".toList, 22, [1]⟩
  | 1 => ⟨"web".toList, 22, [2]⟩
  | _ => ⟨"db".toList, 22, [3]⟩

/-- The second attempt reads the file before the first one writes it, and writes it
afterwards; the third one begins when the first two are accepted. -/
def lostEvents : List Event :=
  [.load 1, .load 0, .check 0, .save 0, .check 1, .save 1, .load 2, .check 2, .save 2]

def Progress.isAccepted : Progress → Bool
  | .accepted => true
  | _ => false

theorem lost_pin : ((lostEvents.take 6).foldlM (step plainDigest dbAttempts) (.start none)).map
        (fun s => (s.progress 0).isAccepted) = some true ∧
      (lostEvents.foldlM (step plainDigest dbAttempts) (.start none)).map
        (fun s => (s.progress 0).isAccepted && (s.progress 2).isAccepted) = some true ∧
      (dbAttempts 0).host = (dbAttempts 2).host ∧ (dbAttempts 0).port = (dbAttempts 2).port ∧
      (dbAttempts 0).key ≠ (dbAttempts 2).key := by
  decide +kernel

end Dbflux.Ssh
