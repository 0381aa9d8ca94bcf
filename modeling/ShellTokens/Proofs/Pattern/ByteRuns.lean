import Mathlib.Data.List.Sort
import ShellTokens.Proofs.Pattern.LongestMatch

/-!
# Runs as repetitions

A run of bytes from a set is the repetition of one byte from it, without a greatest number. The node
for runs jumps over the whole run and lists the ends behind it, while the repetition finds one end
in each round; both describe the same language, so they agree wherever matching begins, also beyond
the end of the input. How the run is jumped over does not matter either: a byte outside the set ends
it, and where these are few they can be looked for instead.
-/

namespace ShellTokens

/-! ### The length of a run -/

/-- Searches for the first of one, two or three bytes, as a library provides them: the index of the
first byte that is among those looked for, if there is any. -/
structure ByteSearch where
  one : UInt8 → List UInt8 → Option Nat
  two : UInt8 → UInt8 → List UInt8 → Option Nat
  three : UInt8 → UInt8 → UInt8 → List UInt8 → Option Nat
  one_eq : ∀ a l, one a l = l.findIdx? fun x => [a].contains x
  two_eq : ∀ a b l, two a b l = l.findIdx? fun x => [a, b].contains x
  three_eq : ∀ a b c l, three a b c l = l.findIdx? fun x => [a, b, c].contains x

/-- The searches that compare byte by byte. -/
def ByteSearch.bytewise : ByteSearch where
  one a l := l.findIdx? (· == a)
  two a b l := l.findIdx? fun x => x == a || x == b
  three a b c l := l.findIdx? fun x => x == a || x == b || x == c
  one_eq a l := by simp [beq_eq_decide]
  two_eq a b l := by simp [beq_eq_decide]
  three_eq a b c l := by simp [beq_eq_decide, Bool.or_assoc]

namespace ByteRun

variable {r : ByteRun}

/-- The length of the run with which `rest` begins, where a search for the few bytes that end it
takes the place of a look at each byte. -/
def searchLength (search : ByteSearch) (r : ByteRun) (rest : List UInt8) : Nat :=
  let stop? :=
    match r.stops with
    | some [a] => search.one a rest
    | some [a, b] => search.two a b rest
    | some [a, b, c] => search.three a b c rest
    | _ => rest.findIdx? fun x => !r.set.contains x
  stop?.getD rest.length

theorem findIdx?_stops {stops : List UInt8} (h : r.stops = some stops) (rest : List UInt8) :
    (rest.findIdx? fun x => stops.contains x) = rest.findIdx? fun x => !r.set.contains x := by
  congr 1
  funext x
  exact ByteSet.contains_of_stops? (r.stops_eq ▸ h) x

theorem searchLength_eq (search : ByteSearch) (r : ByteRun) (rest : List UInt8) :
    r.searchLength search rest = rest.findIdx fun x => !r.set.contains x := by
  rw [List.findIdx_eq_getD_findIdx?, searchLength]
  congr 1
  split
  · next a h => rw [search.one_eq, findIdx?_stops h]
  · next a b h => rw [search.two_eq, findIdx?_stops h]
  · next a b c h => rw [search.three_eq, findIdx?_stops h]
  · rfl

theorem length_eq_findIdx (r : ByteRun) (input : Bytes) (i : Nat) :
    r.length input i = (input.toList.drop i).findIdx fun x => !r.set.contains x := by
  rw [length_eq, Bytes.countWhile_eq, List.takeWhile_eq_take_findIdx_not, List.length_take]
  exact Nat.min_eq_left List.findIdx_le_length

end ByteRun

namespace Pattern

open Positions

variable {set : ByteSet} {input : Bytes} {min i e : Nat}

/-! ### The words of a run -/

theorem mem_pow_oneOf {w : List UInt8} {k : Nat} :
    w ∈ (oneOf set).language ^ k ↔ w.length = k ∧ ∀ b ∈ w, set.contains b := by
  induction k generalizing w with
  | zero =>
    rw [pow_zero, Language.mem_one, List.length_eq_zero_iff]
    constructor
    · rintro rfl
      exact ⟨rfl, by simp⟩
    · exact And.left
  | succ k ih =>
    rw [pow_succ', Language.mem_mul]
    constructor
    · rintro ⟨u, ⟨b, hb, rfl⟩, v, hv, rfl⟩
      obtain ⟨hlength, hall⟩ := ih.1 hv
      refine ⟨by simp [hlength], ?_⟩
      exact List.forall_mem_cons.2 ⟨hb, hall⟩
    · rintro ⟨hlength, hall⟩
      obtain ⟨b, v, rfl⟩ := List.exists_cons_of_length_eq_add_one hlength
      obtain ⟨hb, hall⟩ := List.forall_mem_cons.1 hall
      exact ⟨[b], ⟨b, hb, rfl⟩, v, ih.2 ⟨Nat.succ.inj hlength, hall⟩, rfl⟩

theorem mem_language_runOf {w : List UInt8} :
    w ∈ (runOf set min).language ↔ min ≤ w.length ∧ ∀ b ∈ w, set.contains b := by
  rw [runOf, mem_language_run]

theorem mem_language_times_oneOf {w : List UInt8} {max : Option Nat} :
    w ∈ (times (oneOf set) min max).language ↔
      min ≤ w.length ∧ (∀ m ∈ max, w.length ≤ m) ∧ ∀ b ∈ w, set.contains b := by
  rw [mem_language_times]
  simp only [mem_pow_oneOf]
  constructor
  · rintro ⟨k, hmin, hmax, rfl, hall⟩
    exact ⟨hmin, hmax, hall⟩
  · rintro ⟨hmin, hmax, hall⟩
    exact ⟨w.length, hmin, hmax, rfl, hall⟩

theorem language_times_oneOf (set : ByteSet) (min : Nat) :
    (times (oneOf set) min none).language = (runOf set min).language := by
  ext w
  simp [mem_language_times_oneOf, mem_language_runOf]

/-! ### Match ends -/

/-- Beyond the end of the input only the empty word is left, which no round has to look for. -/
theorem mem_ends_times_oneOf_of_size_lt (hi : input.size < i)
    (he : input.Spells (times (oneOf set) min none).language i e) :
    e ∈ (times (oneOf set) min none).ends input i := by
  have hle := he.le_max_size
  obtain rfl : e = i := by
    have := he.le
    omega
  rw [language_times_oneOf, Bytes.spells_self, mem_language_runOf] at he
  obtain rfl : min = 0 := Nat.le_zero.1 he.1
  rw [ends]
  apply Sweep.advance_iterate_subset_reached_run_none (ascending_ends (oneOf set) input)
  exact List.mem_cons_self

theorem mem_ends_times_oneOf :
    e ∈ (times (oneOf set) min none).ends input i ↔
      input.Spells (times (oneOf set) min none).language i e := by
  refine ⟨spells_of_mem_ends, ?_⟩
  intro he
  obtain hi | hi := Nat.lt_or_ge input.size i
  · exact mem_ends_times_oneOf_of_size_lt hi he
  · exact mem_ends_of_spells hi he

theorem ends_runOf (set : ByteSet) (min : Nat) (input : Bytes) (i : Nat) :
    (runOf set min).ends input i = (times (oneOf set) min none).ends input i := by
  apply List.Pairwise.eq_of_mem_iff (ascending_ends _ input i) (ascending_ends _ input i)
  intro e
  rw [mem_ends_times_oneOf, language_times_oneOf]
  exact mem_ends_run

theorem firstBytes_runOf (set : ByteSet) (min : Nat) :
    (runOf set min).firstBytes = (times (oneOf set) min none).firstBytes := by
  have hempty : set.isEmpty = true → set = ∅ := by
    intro h
    apply ByteSet.ext_contains
    intro b
    rw [ByteSet.isEmpty_iff.1 h b, ByteSet.contains_emptyCollection]
  have hone : (oneOf set).firstBytes = if (oneOf set).viable then set else ∅ := by
    rw [firstBytes.eq_def]
  rw [runOf, firstBytes.eq_def, firstBytes.eq_def (times _ _ _)]
  simp only [hone, viable]
  by_cases h : set.isEmpty = true
  · simp [hempty h]
  · simp [h]

/-- A run is the repetition of one byte from its set: the match ends, the longest match and what a
look at the pattern tells are the same, from every position. Its length is that of a scan byte by
byte, whichever bytes are searched for instead. -/
theorem run_eq_repetition (set : ByteSet) (min : Nat) (input : Bytes) (i : Nat)
    (search : ByteSearch) :
    (runOf set min).ends input i = (times (oneOf set) min none).ends input i ∧
      (runOf set min).longest input i = (times (oneOf set) min none).longest input i ∧
      (runOf set min).nullable = (times (oneOf set) min none).nullable ∧
      (runOf set min).firstBytes = (times (oneOf set) min none).firstBytes ∧
      ({ set, min } : ByteRun).length input i =
        (input.toList.drop i).findIdx (fun b => !set.contains b) ∧
      ({ set, min } : ByteRun).searchLength search (input.toList.drop i) =
        (input.toList.drop i).findIdx (fun b => !set.contains b) := by
  have hends := ends_runOf set min input i
  refine ⟨hends, ?_, ?_, firstBytes_runOf set min, ?_, ?_⟩
  · rw [longest_eq_max?, longest_eq_max?, hends]
  · simp [runOf, nullable]
  · exact ByteRun.length_eq_findIdx _ input i
  · exact ByteRun.searchLength_eq search _ _

/-- Two bytes end the text between single quotes. -/
theorem run_eq_repetition_quoted :
    (plus (.noneOf [0x27, 0])).ends (Bytes.ofString "ab'c") 0 =
        (times (oneOf (.noneOf [0x27, 0])) 1 none).ends (Bytes.ofString "ab'c") 0 ∧
      ({ set := .noneOf [0x27, 0], min := 1 } : ByteRun).searchLength .bytewise
          (Bytes.ofString "ab'c").toList =
        (Bytes.ofString "ab'c").toList.findIdx fun b => !(ByteSet.noneOf [0x27, 0]).contains b := by
  obtain ⟨hends, _, _, _, _, hsearch⟩ :=
    run_eq_repetition (.noneOf [0x27, 0]) 1 (Bytes.ofString "ab'c") 0 .bytewise
  exact ⟨hends, hsearch⟩

example : (plus (.noneOf [0x27, 0])).ends (Bytes.ofString "ab'c") 0 = [1, 2] := by
  decide +kernel

end Pattern

end ShellTokens
