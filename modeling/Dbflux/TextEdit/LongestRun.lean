import Mathlib

/-!
# The longest increasing run

Model of `longest_increasing_run` of `dbflux_ui_document/src/delimited/text_edit.rs`
(lines 1178–1213), which picks the anchors of a line diff: patience sorting over pairs
of indices, with a link from each pair to the one before it in the run it ends. Of
`partition_point` only its contract is used (`PartitionPoint`).

Results:
* `Placed.place`: one turn of the first loop keeps, for every length, the run with the
  smallest last index, and its links.
* `Placed.increasing_tops`: so the tops increase, and `partition_point` is asked only
  where its contract holds.
* `longestIncreasingRun_longest`: the second loop ends with a longest increasing
  subsequence.
-/

namespace Dbflux.TextEdit

open List

/-- `slice::partition_point`: on a list whose leading elements have the property and
whose others do not, the number of leading ones. On other lists it may be anything. -/
structure PartitionPoint where
  find : (ℕ → Bool) → List ℕ → ℕ
  find_append {p : ℕ → Bool} {before after : List ℕ} : (∀ a ∈ before, p a) →
    (∀ a ∈ after, ¬ p a) → find p (before ++ after) = before.length

/-- A search from the left. -/
def PartitionPoint.leading : PartitionPoint where
  find p l := (l.takeWhile p).length
  find_append {p before after} hbefore hafter := by
    cases after with
    | nil => simp [takeWhile_eq_self_iff.mpr hbefore]
    | cons a after =>
      rw [takeWhile_append_of_pos hbefore, takeWhile_cons_of_neg (hafter a mem_cons_self),
        append_nil]

/-- `tops` and `previous`, the variables of the first loop. -/
structure Patience where
  tops : List ℕ
  previous : List (Option ℕ)

variable (search : PartitionPoint)

/-- Whether the pair at `top` has a smaller first index than `pair`. -/
def isBelow (pairs : List (ℕ × ℕ)) (pair : ℕ × ℕ) (top : ℕ) : Bool :=
  pairs[top]?.any (·.1 < pair.1)

theorem isBelow_iff {pairs : List (ℕ × ℕ)} {pair : ℕ × ℕ} {top : ℕ} : isBelow pairs pair top ↔
    ∃ last, pairs[top]? = some last ∧ last.1 < pair.1 := by
  cases htop : pairs[top]? <;> simp [isBelow, htop]

/-- The variable `length` of the first loop. -/
def position (pairs : List (ℕ × ℕ)) (tops : List ℕ) (pair : ℕ × ℕ) : ℕ :=
  search.find (isBelow pairs pair) tops

/-- One pair: the body of the first loop (lines 1184–1201). -/
def place (pairs : List (ℕ × ℕ)) (state : Patience) (index : ℕ) (pair : ℕ × ℕ) : Patience :=
  let length := position search pairs state.tops pair
  { tops := if length < state.tops.length then state.tops.set length index
      else state.tops ++ [index]
    previous := state.previous ++ [if length = 0 then none else state.tops[length - 1]?] }

/-- The first loop, from `index` on. -/
def placeAll (pairs : List (ℕ × ℕ)) : Patience → ℕ → List (ℕ × ℕ) → Patience
  | state, _, [] => state
  | state, index, pair :: rest =>
    placeAll pairs (place search pairs state index pair) (index + 1) rest

/-- The second loop (lines 1206–1209); `none` when `fuel` does not suffice. -/
def follow (pairs : List (ℕ × ℕ)) (previous : List (Option ℕ)) :
    ℕ → Option ℕ → List (ℕ × ℕ) → Option (List (ℕ × ℕ))
  | _, none, run => some run
  | 0, some _, _ => none
  | fuel + 1, some index, run =>
    follow pairs previous fuel previous[index]?.join (run ++ pairs[index]?.toList)

/-- `longest_increasing_run`. -/
def longestIncreasingRun (pairs : List (ℕ × ℕ)) : Option (List (ℕ × ℕ)) :=
  let state := placeAll search pairs ⟨[], []⟩ 0 pairs
  (follow pairs state.previous pairs.length state.tops.getLast? []).map reverse

/-! ## Runs along the links -/

/-- The links lead from the pair `index` along `run`. -/
inductive Links (pairs : List (ℕ × ℕ)) (previous : List (Option ℕ)) : ℕ → List (ℕ × ℕ) → Prop
  | first {index : ℕ} {pair : ℕ × ℕ} : pairs[index]? = some pair → previous[index]? = some none →
    Links pairs previous index [pair]
  | next {index before : ℕ} {pair last : ℕ × ℕ} {run : List (ℕ × ℕ)} :
    pairs[index]? = some pair → previous[index]? = some (some before) → before < index →
    Links pairs previous before (last :: run) → last.1 < pair.1 →
    Links pairs previous index (pair :: last :: run)

/-- First indices increase towards the newest pair. -/
def Increasing (run : List (ℕ × ℕ)) : Prop := run.Pairwise fun later earlier => earlier.1 < later.1

variable {pairs run : List (ℕ × ℕ)} {previous : List (Option ℕ)} {index : ℕ}

namespace Links

variable (h : Links pairs previous index run)
include h

theorem append (more : List (Option ℕ)) :
    Links pairs (previous ++ more) index run := by
  have hold {i : ℕ} {link : Option ℕ} (hlink : previous[i]? = some link) :
      (previous ++ more)[i]? = some link := by
    rw [getElem?_append_left (List.getElem?_eq_some_iff.mp hlink).1, hlink]
  induction h with
  | first hpair hlink => exact .first hpair (hold hlink)
  | next hpair hlink hbefore _ hlt ih => exact .next hpair (hold hlink) hbefore ih hlt

theorem head : ∃ pair rest, run = pair :: rest ∧
    pairs[index]? = some pair := by
  cases h with
  | first hpair _ => exact ⟨_, _, rfl, hpair⟩
  | next hpair _ _ _ _ => exact ⟨_, _, rfl, hpair⟩

theorem sublist : run <+ (pairs.take (index + 1)).reverse := by
  induction h with
  | first hpair _ => simp [take_add_one, hpair]
  | @next index before pair _ _ hpair _ hbefore _ _ ih =>
    rw [take_add_one, hpair, reverse_append]
    exact (ih.trans (reverse_sublist.mpr (take_sublist_take_left hbefore))).cons_cons pair

theorem increasing : Increasing run := by
  induction h with
  | first => exact pairwise_singleton _ _
  | next _ _ _ _ hlt ih =>
    refine pairwise_cons.mpr ⟨fun earlier hmem => ?_, ih⟩
    rcases mem_cons.mp hmem with rfl | hmem
    · exact hlt
    · exact (rel_of_pairwise_cons ih hmem).trans hlt

theorem follow_eq {fuel : ℕ} (hfuel : index < fuel)
    (done : List (ℕ × ℕ)) : follow pairs previous fuel (some index) done = some (done ++ run) := by
  induction h generalizing fuel done with
  | first hpair hlink =>
    obtain ⟨fuel, rfl⟩ := Nat.exists_eq_add_one_of_ne_zero (Nat.ne_zero_of_lt hfuel)
    rw [follow, hpair, hlink]
    cases fuel <;> rfl
  | next hpair hlink hbefore _ _ ih =>
    obtain ⟨fuel, rfl⟩ := Nat.exists_eq_add_one_of_ne_zero (Nat.ne_zero_of_lt hfuel)
    rw [follow, hpair, hlink]
    exact (ih (by omega) _).trans (by rw [append_assoc]; rfl)

end Links

/-! ## The first loop -/

/-- After `count` pairs, each top ends a run of its length, and no run of that length over these
pairs has a smaller last first index. -/
structure Placed (pairs : List (ℕ × ℕ)) (count : ℕ) (state : Patience) : Prop where
  length : state.previous.length = count
  links : ∀ k top, state.tops[k]? = some top → top < count ∧
    ∃ run, run.length = k + 1 ∧ Links pairs state.previous top run
  best : ∀ pair run, pair :: run <+ (pairs.take count).reverse → Increasing (pair :: run) →
    ∃ top least, state.tops[run.length]? = some top ∧ pairs[top]? = some least ∧ least.1 ≤ pair.1

/-- If the property passes on to earlier elements, the list is split by it. -/
theorem not_of_mem_dropWhile {p : ℕ → Bool} {l : List ℕ} (hl : l.Pairwise fun a b => p b → p a) :
    ∀ a ∈ l.dropWhile p, ¬ p a := by
  induction l with
  | nil => simp
  | cons b l ih =>
    obtain ⟨hb, hl⟩ := pairwise_cons.mp hl
    by_cases hp : p b
    · rw [dropWhile_cons_of_pos hp]
      exact ih hl
    · rw [dropWhile_cons_of_neg hp]
      exact forall_mem_cons.mpr ⟨hp, fun a ha hpa => hp (hb a ha hpa)⟩

namespace Placed

variable {count : ℕ} {state : Patience} {pair : ℕ × ℕ}

section

variable (h : Placed pairs count state)
include h

/-- The tops increase: the run that ends at a later top has a part for every smaller length, and
the top of that length is no larger than the part's last. -/
theorem increasing_tops {k k' top top' : ℕ} {last last' : ℕ × ℕ}
    (hk : k < k') (htop : state.tops[k]? = some top) (hlast : pairs[top]? = some last)
    (htop' : state.tops[k']? = some top') (hlast' : pairs[top']? = some last') :
    last.1 < last'.1 := by
  obtain ⟨hcount, run, hlength, hlinks⟩ := h.links k' top' htop'
  obtain ⟨newest, rest, rfl, hnewest⟩ := hlinks.head
  cases hlast'.symm.trans hnewest
  rw [length_cons] at hlength
  have hdrop := drop_sublist (k' - k - 1) rest
  rcases hpart : rest.drop (k' - k - 1) with _ | ⟨earlier, part⟩
  · rw [drop_eq_nil_iff] at hpart
    omega
  · rw [hpart] at hdrop
    have hpartLength : part.length = k := by
      have := congrArg List.length hpart
      rw [length_drop, length_cons] at this
      omega
    have hwhole := hdrop.trans (sublist_cons_self last' rest)
    obtain ⟨other, least, hother, hleast, hle⟩ := h.best earlier part
      (hwhole.trans (hlinks.sublist.trans (reverse_sublist.mpr (take_sublist_take_left hcount))))
      (hlinks.increasing.sublist hwhole)
    rw [hpartLength] at hother
    cases htop.symm.trans hother
    cases hlast.symm.trans hleast
    exact hle.trans_lt (rel_of_pairwise_cons hlinks.increasing (hdrop.subset mem_cons_self))

/-- So `partition_point` is asked about a list that its property splits. -/
theorem find_tops (pair : ℕ × ℕ) :
    ∃ before after, state.tops = before ++ after ∧
      position search pairs state.tops pair = before.length ∧
      (∀ top ∈ before, isBelow pairs pair top) ∧ ∀ top ∈ after, ¬ isBelow pairs pair top := by
  have hpasses : state.tops.Pairwise fun a b => isBelow pairs pair b → isBelow pairs pair a := by
    rw [pairwise_iff_getElem]
    intro i j hi hj hij hbelow
    obtain ⟨last', hlast', hlt⟩ := isBelow_iff.mp hbelow
    obtain ⟨-, run, -, hlinks⟩ := h.links i _ (getElem?_eq_getElem hi)
    obtain ⟨last, -, -, hlast⟩ := hlinks.head
    have hless :=
      h.increasing_tops hij (getElem?_eq_getElem hi) hlast (getElem?_eq_getElem hj) hlast'
    exact isBelow_iff.mpr ⟨last, hlast, hless.trans hlt⟩
  have hbefore : ∀ top ∈ state.tops.takeWhile (isBelow pairs pair), isBelow pairs pair top :=
    fun top htop => mem_takeWhile_imp htop
  have hafter := not_of_mem_dropWhile hpasses
  have hfind := search.find_append hbefore hafter
  rw [takeWhile_append_dropWhile] at hfind
  exact ⟨_, _, (takeWhile_append_dropWhile ..).symm, hfind, hbefore, hafter⟩

/-- The tops before the position are those with a smaller first index. -/
theorem lt_position_iff (pair : ℕ × ℕ) {k top : ℕ}
    {last : ℕ × ℕ} (htop : state.tops[k]? = some top) (hlast : pairs[top]? = some last) :
    k < position search pairs state.tops pair ↔ last.1 < pair.1 := by
  have hbelow : isBelow pairs pair top ↔ last.1 < pair.1 := by simp [isBelow, hlast]
  obtain ⟨before, after, htops, hposition, hbefore, hafter⟩ := h.find_tops search pair
  rw [hposition, ← hbelow]
  rw [htops] at htop
  by_cases hk : k < before.length
  · rw [getElem?_append_left hk] at htop
    exact iff_of_true hk (hbefore top (mem_of_getElem? htop))
  · rw [getElem?_append_right (not_lt.mp hk)] at htop
    exact iff_of_false hk (hafter top (mem_of_getElem? htop))

theorem position_le (pair : ℕ × ℕ) :
    position search pairs state.tops pair ≤ state.tops.length := by
  obtain ⟨before, after, htops, hposition, -, -⟩ := h.find_tops search pair
  rw [hposition, htops, length_append]
  exact Nat.le_add_right _ _

theorem getElem?_place_tops (index : ℕ) (pair : ℕ × ℕ) (k : ℕ) :
    (place search pairs state index pair).tops[k]? =
      if k = position search pairs state.tops pair then some index else state.tops[k]? := by
  have hle := h.position_le search pair
  dsimp only [TextEdit.place]
  grind

/-- What stands before the position ends runs that `pair` continues. -/
theorem below {k : ℕ}
    (hk : k < position search pairs state.tops pair) :
    ∃ top run last, state.tops[k]? = some top ∧ top < count ∧ (last :: run).length = k + 1 ∧
      Links pairs state.previous top (last :: run) ∧ pairs[top]? = some last ∧
      last.1 < pair.1 := by
  have htop := getElem?_eq_getElem (hk.trans_le (h.position_le search pair))
  obtain ⟨hcount, run, hlength, hlinks⟩ := h.links k _ htop
  obtain ⟨last, rest, rfl, hlast⟩ := hlinks.head
  exact ⟨_, rest, last, htop, hcount, hlength, hlinks, hlast,
    (h.lt_position_iff search pair htop hlast).mp hk⟩

/-- The run that `pair` ends: behind the top before its position. -/
theorem links_place (hpair : pairs[count]? = some pair) :
    ∃ run, run.length = position search pairs state.tops pair + 1 ∧
      Links pairs (place search pairs state count pair).previous count run := by
  have hlink : (place search pairs state count pair).previous[count]? = some
      (if position search pairs state.tops pair = 0 then none
        else state.tops[position search pairs state.tops pair - 1]?) := by
    rw [← h.length]
    exact getElem?_concat_length
  cases hposition : position search pairs state.tops pair with
  | zero =>
    rw [hposition] at hlink
    exact ⟨[pair], rfl, .first hpair hlink⟩
  | succ k =>
    obtain ⟨top, run, last, htop, hcount, hlength, hlinks, -, hlt⟩ :=
      h.below search (hposition.symm ▸ Nat.lt_add_one k)
    rw [hposition, if_neg (Nat.succ_ne_zero k), Nat.add_sub_cancel, htop] at hlink
    exact ⟨pair :: last :: run, congrArg (· + 1) hlength,
      .next hpair hlink hcount (hlinks.append _) hlt⟩

/-- A run that ends with `pair` is at most one longer than its position. -/
theorem length_le_position {run : List (ℕ × ℕ)}
    (hsub : run <+ (pairs.take count).reverse) (hrun : Increasing (pair :: run)) :
    run.length ≤ position search pairs state.tops pair := by
  cases run with
  | nil => exact Nat.zero_le _
  | cons last run =>
    obtain ⟨hlast, hrest⟩ := pairwise_cons.mp hrun
    obtain ⟨top, least, htop, hleast, hle⟩ := h.best last run hsub hrest
    exact (h.lt_position_iff search pair htop hleast).mpr
      (hle.trans_lt (hlast last mem_cons_self))

theorem place (hpair : pairs[count]? = some pair) :
    Placed pairs (count + 1) (place search pairs state count pair) := by
  refine ⟨by simp [TextEdit.place, h.length], fun k top htop => ?_, fun later run hsub hrun => ?_⟩
  · rw [h.getElem?_place_tops] at htop
    split_ifs at htop with hk
    · cases htop
      exact ⟨Nat.lt_succ_self _, hk ▸ h.links_place search hpair⟩
    · obtain ⟨hcount, run, hlength, hlinks⟩ := h.links k top htop
      exact ⟨hcount.trans (Nat.lt_succ_self _), run, hlength, hlinks.append _⟩
  · rw [take_add_one, hpair, reverse_append] at hsub
    rw [h.getElem?_place_tops]
    cases hsub with
    | cons _ hsub =>
      obtain ⟨top, least, htop, hleast, hle⟩ := h.best later run hsub hrun
      split_ifs with hk
      · have hat := mt (h.lt_position_iff search pair htop hleast).mpr hk.not_lt
        exact ⟨count, pair, rfl, hpair, (not_lt.mp hat).trans hle⟩
      · exact ⟨top, least, htop, hleast, hle⟩
    | cons_cons _ hsub =>
      split_ifs with hk
      · exact ⟨count, pair, rfl, hpair, le_rfl⟩
      · obtain ⟨top, _, last, htop, -, -, -, hlast, hlt⟩ :=
          h.below search (lt_of_le_of_ne (h.length_le_position search hsub hrun) hk)
        exact ⟨top, last, htop, hlast, hlt.le⟩

end

theorem placeAll {done rest : List (ℕ × ℕ)} (hpairs : pairs = done ++ rest)
    (h : Placed pairs done.length state) :
    Placed pairs pairs.length (placeAll search pairs state done.length rest) := by
  induction rest generalizing done state with
  | nil => rwa [hpairs, append_nil] at h ⊢
  | cons pair rest ih =>
    have hlength : (done ++ [pair]).length = done.length + 1 := length_append
    rw [TextEdit.placeAll, ← hlength]
    exact ih (by rw [hpairs, append_assoc]; rfl) (hlength ▸ h.place search (by simp [hpairs]))

theorem length_le_tops (h : Placed pairs pairs.length state) {other : List (ℕ × ℕ)}
    (hsub : other <+ pairs) (hother : other.Pairwise fun earlier later => earlier.1 < later.1) :
    other.length ≤ state.tops.length := by
  rcases hreverse : other.reverse with _ | ⟨last, run⟩
  · simp [reverse_eq_nil_iff.mp hreverse]
  · have hrun : Increasing (last :: run) := hreverse ▸ pairwise_reverse.mpr hother
    have hlast : last :: run <+ (pairs.take pairs.length).reverse := by
      rw [take_length, ← hreverse]
      exact reverse_sublist.mpr hsub
    obtain ⟨top, least, htop, -, -⟩ := h.best last run hlast hrun
    rw [← length_reverse, hreverse]
    exact (List.getElem?_eq_some_iff.mp htop).1

end Placed

/-- **The loops end in a longest increasing subsequence.** -/
theorem longestIncreasingRun_longest (pairs : List (ℕ × ℕ)) :
    ∃ run, longestIncreasingRun search pairs = some run ∧ run <+ pairs ∧
      run.Pairwise (fun earlier later => earlier.1 < later.1) ∧
      ∀ other, other <+ pairs → other.Pairwise (fun earlier later => earlier.1 < later.1) →
        other.length ≤ run.length := by
  have hplaced : Placed pairs pairs.length (placeAll search pairs ⟨[], []⟩ 0 pairs) :=
    Placed.placeAll search (nil_append pairs).symm ⟨rfl, by simp, by simp⟩
  unfold longestIncreasingRun
  generalize placeAll search pairs ⟨[], []⟩ 0 pairs = state at hplaced ⊢
  cases hlast : state.tops.getLast? with
  | none =>
    refine ⟨[], by simp only [hlast, follow]; rfl, nil_sublist _, Pairwise.nil,
      fun other hsub hother => (hplaced.length_le_tops hsub hother).trans_eq ?_⟩
    rw [getLast?_eq_none_iff.mp hlast]
    rfl
  | some top =>
    have htop : state.tops[state.tops.length - 1]? = some top := by
      rw [← getLast?_eq_getElem?, hlast]
    obtain ⟨hbound, run, hlength, hlinks⟩ := hplaced.links _ _ htop
    have hsub := hlinks.sublist.trans (reverse_sublist.mpr (take_sublist _ _))
    refine ⟨run.reverse, ?_, reverse_reverse pairs ▸ reverse_sublist.mpr hsub,
      pairwise_reverse.mpr hlinks.increasing, fun other hother hpairwise => ?_⟩
    · simp only [hlast, hlinks.follow_eq hbound]
      rfl
    · have := hplaced.length_le_tops hother hpairwise
      rw [length_reverse, hlength]
      omega

example : longestIncreasingRun .leading [(2, 0), (0, 1), (3, 2), (1, 3)] =
    some [(0, 1), (1, 3)] := by decide

end Dbflux.TextEdit
