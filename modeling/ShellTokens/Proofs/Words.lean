import Mathlib.Computability.Language
import Mathlib.Data.List.TakeWhile
import ShellTokens.Bytes

/-!
# Words in an input

The relation `Spells` says which stretches of an input are words of a language. It turns the
operations on languages into operations on positions: a product is read over an intermediate
position, a power over a chain of them. Past the end of the input only the empty word is left.
Whether a word stands at a position depends neither on the bytes before it nor on those behind the
word.
-/

namespace ShellTokens.Bytes

variable {input : Bytes} {L M : Language UInt8} {i e : Nat}

/-- A word of `L` stands in the input from position `i` up to position `e`. -/
def Spells (input : Bytes) (L : Language UInt8) (i e : Nat) : Prop :=
  ∃ w ∈ L, w <+: input.toList.drop i ∧ e = i + w.length

/-! ### Where a word ends -/

theorem Spells.le (h : input.Spells L i e) : i ≤ e := by
  obtain ⟨w, _, _, rfl⟩ := h
  exact Nat.le_add_right i w.length

theorem Spells.le_max_size (h : input.Spells L i e) : e ≤ max i input.size := by
  obtain ⟨w, _, hw, rfl⟩ := h
  have hlength := hw.length_le
  simp only [List.length_drop, Array.length_toList] at hlength
  omega

theorem Spells.le_size (h : input.Spells L i e) (hi : i ≤ input.size) : e ≤ input.size := by
  have := h.le_max_size
  omega

/-- From a position to itself stands the empty word only. -/
theorem spells_self : input.Spells L i i ↔ [] ∈ L := by
  constructor
  · rintro ⟨w, hL, _, hlength⟩
    have hnil : w = [] := List.length_eq_zero_iff.1 (by omega)
    exact hnil ▸ hL
  · intro hL
    exact ⟨[], hL, List.nil_prefix, rfl⟩

theorem getElem?_of_cons_prefix {b : UInt8} {w : List UInt8} (h : b :: w <+: input.toList.drop i) :
    input[i]? = some b := by
  obtain ⟨rest, hrest⟩ := h
  have hhead : (input.toList.drop i)[0]? = some b := by rw [← hrest]; rfl
  rwa [List.getElem?_drop, Nat.add_zero, Array.getElem?_toList] at hhead

/-- A word that is not empty begins with the byte at its position. -/
theorem Spells.exists_cons (h : input.Spells L i e) (hie : i < e) :
    ∃ b w, input[i]? = some b ∧ b :: w ∈ L := by
  obtain ⟨w, hL, hw, rfl⟩ := h
  cases w with
  | nil => simp at hie
  | cons b w => exact ⟨b, w, getElem?_of_cons_prefix hw, hL⟩

theorem getElem?_of_prefix {w : List UInt8} {k : Nat} (h : w <+: input.toList.drop i)
    (hk : k < w.length) : input[i + k]? = some w[k] := by
  obtain ⟨rest, hrest⟩ := h
  have hbyte : (input.toList.drop i)[k]? = some w[k] := by
    rw [← hrest, List.getElem?_append_left hk, List.getElem?_eq_getElem hk]
  rwa [List.getElem?_drop, Array.getElem?_toList] at hbyte

theorem concat_prefix {w : List UInt8} {b : UInt8} (h : w <+: input.toList.drop i)
    (hb : input[i + w.length]? = some b) : w ++ [b] <+: input.toList.drop i := by
  obtain ⟨rest, hrest⟩ := h
  have hdrop : input.toList.drop (i + w.length) = rest := by
    rw [← List.drop_drop, ← hrest, List.drop_left]
  rw [← hrest, List.prefix_append_right_inj, ← hdrop, drop_toList_of_getElem? hb]
  exact List.prefix_append [b] _

/-- Each byte of the stretch is one of the word. -/
theorem Spells.exists_mem (h : input.Spells L i e) {j : Nat} (hij : i ≤ j) (hje : j < e) :
    ∃ w ∈ L, ∃ b ∈ w, input[j]? = some b := by
  obtain ⟨w, hL, hw, rfl⟩ := h
  have hk : j - i < w.length := by omega
  have hbyte := getElem?_of_prefix hw hk
  rw [Nat.add_sub_cancel' hij] at hbyte
  exact ⟨w, hL, w[j - i], List.getElem_mem hk, hbyte⟩

/-- Each byte of the stretch but the first is one of the word behind its first byte. -/
theorem Spells.exists_later (h : input.Spells L i e) {j : Nat} (hij : i < j) (hje : j < e) :
    ∃ a w, a :: w ∈ L ∧ ∃ b ∈ w, input[j]? = some b := by
  obtain ⟨w, hL, hw, rfl⟩ := h
  cases w with
  | nil => simp at hje; omega
  | cons a w =>
    obtain ⟨k, rfl⟩ := Nat.exists_eq_add_of_lt hij
    have hk : k + 1 < (a :: w).length := by omega
    have hbyte := getElem?_of_prefix hw hk
    rw [← Nat.add_assoc, List.getElem_cons_succ] at hbyte
    exact ⟨a, w, hL, _, List.getElem_mem _, hbyte⟩

/-- A byte that can only be the last one of a word stands at its end. -/
theorem Spells.succ_eq_of_getElem? {b : UInt8} (h : input.Spells L i e)
    (hL : ∀ w ∈ L, b ∉ w.dropLast) {j : Nat} (hij : i ≤ j) (hje : j < e)
    (hb : input[j]? = some b) : j + 1 = e := by
  obtain ⟨w, hw, hprefix, rfl⟩ := h
  by_contra hne
  have hk : j - i < w.dropLast.length := by
    rw [List.length_dropLast]
    omega
  have hbyte := getElem?_of_prefix hprefix (k := j - i) (by omega)
  rw [Nat.add_sub_cancel' hij, hb, Option.some_inj] at hbyte
  apply hL w hw
  rw [hbyte, ← List.getElem_dropLast hk]
  exact List.getElem_mem hk

theorem spells_iff_extract (hi : i ≤ input.size) :
    input.Spells L i e ↔ i ≤ e ∧ e ≤ input.size ∧ (input.extract i e).toList ∈ L := by
  rw [Array.toList_extract, List.extract_eq_take_drop]
  constructor
  · intro h
    have hle := h.le_size hi
    obtain ⟨w, hL, hw, rfl⟩ := h
    refine ⟨Nat.le_add_right i w.length, hle, ?_⟩
    rw [Nat.add_sub_cancel_left, ← List.prefix_iff_eq_take.1 hw]
    exact hL
  · rintro ⟨hie, he, hL⟩
    refine ⟨_, hL, List.take_prefix _ _, ?_⟩
    rw [List.length_take, List.length_drop, Array.length_toList]
    omega

/-! ### Parts of an input -/

/-- In the first `n` bytes stand the words that end there. -/
theorem spells_take {n : Nat} (hi : i ≤ n) :
    (input.take n).Spells L i e ↔ input.Spells L i e ∧ e ≤ n := by
  unfold Spells
  rw [toList_take, List.drop_take]
  constructor
  · rintro ⟨w, hL, hw, rfl⟩
    obtain ⟨hw, hlength⟩ := List.prefix_take_iff.1 hw
    exact ⟨⟨w, hL, hw, rfl⟩, by omega⟩
  · rintro ⟨⟨w, hL, hw, rfl⟩, hlength⟩
    exact ⟨w, hL, List.prefix_take_iff.2 ⟨hw, by omega⟩, rfl⟩

/-- The bytes before a word do not matter. -/
theorem spells_append {before : Bytes} :
    (before ++ input).Spells L (before.size + i) e ↔
      ∃ j, input.Spells L i j ∧ e = before.size + j := by
  have hdrop : (before ++ input).toList.drop (before.size + i) = input.toList.drop i := by
    rw [Array.toList_append, ← List.drop_drop, ← Array.length_toList, List.drop_left]
  unfold Spells
  rw [hdrop]
  constructor
  · rintro ⟨w, hL, hw, rfl⟩
    exact ⟨i + w.length, ⟨w, hL, hw, rfl⟩, Nat.add_assoc _ _ _⟩
  · rintro ⟨_, ⟨w, hL, hw, rfl⟩, rfl⟩
    exact ⟨w, hL, hw, (Nat.add_assoc _ _ _).symm⟩

/-- Where bytes are renamed, words stand for those that they rename. -/
theorem spells_map {f : UInt8 → UInt8} :
    Spells (input.map f) L i e ↔ input.Spells {w | w.map f ∈ L} i e := by
  unfold Spells
  rw [Array.toList_map, ← List.map_drop]
  constructor
  · rintro ⟨w, hL, hw, rfl⟩
    obtain ⟨v, hv, rfl⟩ := List.prefix_map_iff.1 hw
    exact ⟨v, hL, hv, by simp⟩
  · rintro ⟨w, hL, hw, rfl⟩
    exact ⟨w.map f, hL, hw.map f, by simp⟩

/-! ### Operations on languages -/

@[simp] theorem not_spells_zero : ¬ input.Spells 0 i e := by
  intro h
  obtain ⟨w, hw, _⟩ := h
  exact Language.notMem_zero w hw

@[simp] theorem spells_one : input.Spells 1 i e ↔ e = i := by
  constructor
  · intro h
    obtain ⟨w, hw, _, rfl⟩ := h
    rw [(Language.mem_one w).1 hw]
    rfl
  · intro h
    subst e
    exact ⟨[], Language.nil_mem_one, List.nil_prefix, rfl⟩

theorem spells_add : input.Spells (L + M) i e ↔ input.Spells L i e ∨ input.Spells M i e := by
  constructor
  · intro h
    obtain ⟨w, hL | hM, hw⟩ := h
    · exact Or.inl ⟨w, hL, hw⟩
    · exact Or.inr ⟨w, hM, hw⟩
  · intro h
    rcases h with ⟨w, hL, hw⟩ | ⟨w, hM, hw⟩
    · exact ⟨w, Or.inl hL, hw⟩
    · exact ⟨w, Or.inr hM, hw⟩

theorem append_prefix_iff {α : Type} {u v l : List α} :
    u ++ v <+: l ↔ u <+: l ∧ v <+: l.drop u.length := by
  constructor
  · intro h
    obtain ⟨t, rfl⟩ := h
    refine ⟨⟨v ++ t, (List.append_assoc u v t).symm⟩, t, ?_⟩
    rw [List.append_assoc, List.drop_left]
  · intro h
    obtain ⟨⟨t, rfl⟩, hv⟩ := h
    rw [List.drop_left] at hv
    exact (List.prefix_append_right_inj u).2 hv

theorem spells_mul :
    input.Spells (L * M) i e ↔ ∃ j, input.Spells L i j ∧ input.Spells M j e := by
  constructor
  · intro h
    obtain ⟨w, hw, hprefix, rfl⟩ := h
    obtain ⟨u, hu, v, hv, rfl⟩ := Language.mem_mul.1 hw
    obtain ⟨hup, hvp⟩ := append_prefix_iff.1 hprefix
    rw [List.drop_drop] at hvp
    refine ⟨i + u.length, ⟨u, hu, hup, rfl⟩, v, hv, hvp, ?_⟩
    rw [List.length_append, Nat.add_assoc]
  · intro h
    obtain ⟨j, ⟨u, hu, hup, rfl⟩, v, hv, hvp, rfl⟩ := h
    rw [← List.drop_drop] at hvp
    refine ⟨u ++ v, Language.append_mem_mul hu hv, append_prefix_iff.2 ⟨hup, hvp⟩, ?_⟩
    rw [List.length_append, Nat.add_assoc]

theorem spells_pow_succ {k : Nat} :
    input.Spells (L ^ (k + 1)) i e ↔ ∃ j, input.Spells (L ^ k) i j ∧ input.Spells L j e := by
  rw [pow_succ, spells_mul]

/-! ### Single words, single bytes and runs -/

theorem spells_word {word : List UInt8} :
    input.Spells {word} i e ↔ word <+: input.toList.drop i ∧ e = i + word.length := by
  constructor
  · rintro ⟨w, rfl, hw⟩
    exact hw
  · intro hw
    exact ⟨word, rfl, hw⟩

theorem spells_byte {p : UInt8 → Prop} :
    input.Spells {w | ∃ b, p b ∧ w = [b]} i e ↔ ∃ b, input[i]? = some b ∧ p b ∧ e = i + 1 := by
  constructor
  · rintro ⟨_, ⟨b, hb, rfl⟩, hw, rfl⟩
    exact ⟨b, getElem?_of_cons_prefix hw, hb, rfl⟩
  · rintro ⟨b, hbyte, hb, rfl⟩
    refine ⟨[b], ⟨b, hb, rfl⟩, ?_, rfl⟩
    rw [drop_toList_of_getElem? hbyte]
    exact ⟨_, rfl⟩

/-- The words over a class of bytes are the stretches of the longest run. -/
theorem spells_run {p : UInt8 → Bool} {min : Nat} :
    input.Spells {w | min ≤ w.length ∧ ∀ b ∈ w, p b} i e ↔
      i + min ≤ e ∧ e ≤ i + input.countWhile p i := by
  rw [countWhile_eq]
  constructor
  · rintro ⟨w, ⟨hmin, hall⟩, ⟨rest, hrest⟩, rfl⟩
    rw [← hrest, List.takeWhile_append_of_pos hall, List.length_append]
    omega
  · rintro ⟨hmin, hmax⟩
    set run := (input.toList.drop i).takeWhile p with hrun
    have hlength : (run.take (e - i)).length = e - i := by
      rw [List.length_take]
      omega
    refine ⟨run.take (e - i), ⟨?_, ?_⟩, ?_, ?_⟩
    · omega
    · intro b hb
      exact List.mem_takeWhile_imp (List.mem_of_mem_take hb)
    · exact (List.take_prefix _ _).trans (List.takeWhile_prefix p)
    · omega


theorem drop_length_takeWhile {α : Type} (p : α → Bool) (l : List α) :
    l.drop (l.takeWhile p).length = l.dropWhile p := by
  calc l.drop (l.takeWhile p).length
    _ = (l.takeWhile p ++ l.dropWhile p).drop (l.takeWhile p).length := by
        rw [List.takeWhile_append_dropWhile]
    _ = l.dropWhile p := List.drop_left

theorem takeWhile_drop_eq_nil {p : UInt8 → Bool} (h : ∀ b, input[i]? = some b → p b = false) :
    (input.toList.drop i).takeWhile p = [] := by
  cases hb : input[i]? with
  | none => rw [drop_toList_of_getElem?_eq_none hb, List.takeWhile_nil]
  | some b => rw [drop_toList_of_getElem? hb, List.takeWhile_cons_of_neg (by simp [h b hb])]

/-- The byte behind the longest run is not one of the class. -/
theorem not_of_getElem?_behind_run {p : UInt8 → Bool} {b : UInt8}
    (hb : input[i + ((input.toList.drop i).takeWhile p).length]? = some b) : p b = false := by
  have hhead := List.head?_dropWhile_not p (input.toList.drop i)
  rwa [← drop_length_takeWhile, List.drop_drop, drop_toList_of_getElem? hb] at hhead

end ShellTokens.Bytes
