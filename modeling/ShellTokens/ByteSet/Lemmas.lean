import ShellTokens.ByteSet.Basic

/-!
# Membership in sets of bytes

Each operation is described by the bytes that its result contains. A set is determined by its
members, `toList` lists them in ascending order, and `size` counts them.
-/

namespace ShellTokens.ByteSet

variable {s t : ByteSet} {a b : UInt8}

/-! ### Words and bits -/

theorem toBitVec_mask (b : UInt8) : (mask b).toBitVec = BitVec.twoPow 64 (b.toNat % 64) := by
  have h : b.toNat % 64 < 64 := Nat.mod_lt _ (by decide)
  rw [mask, UInt64.toBitVec_shiftLeft, BitVec.twoPow_eq, BitVec.shiftLeft_eq']
  congr 1
  simp

/-- The mask of a byte picks one bit of a word. -/
theorem and_mask_ne_zero (w : UInt64) (b : UInt8) :
    (w &&& mask b != 0) = w.toBitVec.getLsbD (b.toNat % 64) := by
  have h : b.toNat % 64 < 64 := Nat.mod_lt _ (by decide)
  have key : w &&& mask b = 0 ↔ w.toBitVec.getLsbD (b.toNat % 64) = false := by
    rw [← UInt64.toBitVec_inj, UInt64.toBitVec_and, toBitVec_mask, BitVec.and_twoPow]
    split
    · next hbit =>
      simp only [hbit, Bool.true_eq_false, iff_false]
      intro hzero
      have := congrArg (fun v => v.getLsbD (b.toNat % 64)) hzero
      simp [h] at this
    · next hbit => simpa using hbit
  cases hw : w.toBitVec.getLsbD (b.toNat % 64) <;> simp_all [bne]

theorem contains_eq_getLsbD (s : ByteSet) (b : UInt8) :
    s.contains b = (s.word b).toBitVec.getLsbD (b.toNat % 64) :=
  and_mask_ne_zero _ _

theorem word_union (s t : ByteSet) (b : UInt8) : (s.union t).word b = s.word b ||| t.word b := by
  unfold word union
  repeat' split
  all_goals rfl

theorem word_compl (s : ByteSet) (b : UInt8) : s.compl.word b = ~~~s.word b := by
  unfold word compl
  repeat' split
  all_goals rfl

theorem word_insert_of_eq (s : ByteSet) (h : a.toNat / 64 = b.toNat / 64) :
    (s.insert a).word b = s.word b ||| mask a := by
  unfold word insert
  simp only [UInt8.lt_iff_toNat_lt, UInt8.reduceToNat]
  repeat' split
  all_goals first | rfl | omega

theorem word_insert_of_ne (s : ByteSet) (h : a.toNat / 64 ≠ b.toNat / 64) :
    (s.insert a).word b = s.word b := by
  have := a.toNat_lt
  have := b.toNat_lt
  unfold word insert
  simp only [UInt8.lt_iff_toNat_lt, UInt8.reduceToNat]
  repeat' split
  all_goals first | rfl | omega

/-! ### Members of each operation -/

@[simp] theorem contains_empty (b : UInt8) : empty.contains b = false := by
  rw [contains_eq_getLsbD]
  unfold word empty
  simp

@[simp] theorem contains_emptyCollection (b : UInt8) : (∅ : ByteSet).contains b = false :=
  contains_empty b

@[simp] theorem contains_union (s t : ByteSet) (b : UInt8) :
    (s.union t).contains b = (s.contains b || t.contains b) := by
  simp [contains_eq_getLsbD, word_union]

@[simp] theorem contains_cup (s t : ByteSet) (b : UInt8) :
    (s ∪ t).contains b = (s.contains b || t.contains b) :=
  contains_union s t b

@[simp] theorem contains_compl (s : ByteSet) (b : UInt8) :
    s.compl.contains b = !s.contains b := by
  have h : b.toNat % 64 < 64 := Nat.mod_lt _ (by decide)
  simp [contains_eq_getLsbD, word_compl, h]

@[simp] theorem contains_insert (s : ByteSet) (a b : UInt8) :
    (s.insert a).contains b = (b == a || s.contains b) := by
  rw [contains_eq_getLsbD, contains_eq_getLsbD]
  by_cases h : a.toNat / 64 = b.toNat / 64
  · have hbit : (mask a).toBitVec.getLsbD (b.toNat % 64) = (b == a) := by
      rw [toBitVec_mask, BitVec.getLsbD_twoPow]
      by_cases hab : b = a
      · simp [hab, Nat.mod_lt]
      · have : b.toNat ≠ a.toNat := fun hn => hab (UInt8.toNat_inj.1 hn)
        have : a.toNat % 64 ≠ b.toNat % 64 := by omega
        simp [hab, this]
    rw [word_insert_of_eq s h, UInt64.toBitVec_or, BitVec.getLsbD_or, hbit, Bool.or_comm]
  · have hne : b ≠ a := by
      rintro rfl
      exact h rfl
    rw [word_insert_of_ne s h]
    simp [hne]

@[simp] theorem contains_full (b : UInt8) : full.contains b = true := by
  have h : full = empty.compl := by decide
  simp [h]

theorem contains_foldl_insert (l : List UInt8) (s : ByteSet) (b : UInt8) :
    (l.foldl insert s).contains b = (l.contains b || s.contains b) := by
  induction l generalizing s with
  | nil => simp
  | cons a l ih =>
    rw [List.foldl_cons, ih, contains_insert, List.contains_cons]
    cases b == a <;> cases l.contains b <;> rfl

@[simp] theorem contains_ofList (l : List UInt8) (b : UInt8) :
    (ofList l).contains b = l.contains b := by
  simp [ofList, contains_foldl_insert]

theorem mem_allBytes (b : UInt8) : b ∈ allBytes := by
  refine List.mem_map.2 ⟨b.toNat, List.mem_range.2 b.toNat_lt, ?_⟩
  simp

@[simp] theorem contains_range (lo hi b : UInt8) :
    (range lo hi).contains b = (decide (lo ≤ b) && decide (b ≤ hi)) := by
  rw [range, contains_ofList, Bool.eq_iff_iff, List.contains_iff_mem, List.mem_filter]
  exact and_iff_right (mem_allBytes b)

@[simp] theorem contains_noneOf (l : List UInt8) (b : UInt8) :
    (noneOf l).contains b = !l.contains b := by
  simp [noneOf]

/-! ### Sets with the same members -/

theorem toNat_ofNat_add {k i : Nat} (hk : k < 4) (hi : i < 64) :
    (UInt8.ofNat (64 * k + i)).toNat = 64 * k + i :=
  UInt8.toNat_ofNat_of_lt' (by simp [UInt8.size]; omega)

/-- Sixty-four consecutive bytes share a word. -/
theorem word_ofNat_add (s : ByteSet) {k i : Nat} (hk : k < 4) (hi : i < 64) :
    s.word (UInt8.ofNat (64 * k + i)) = s.word (UInt8.ofNat (64 * k)) := by
  have hbase := toNat_ofNat_add hk (i := 0) (by decide)
  unfold word
  simp only [UInt8.lt_iff_toNat_lt, UInt8.reduceToNat, toNat_ofNat_add hk hi, Nat.add_zero] at *
  simp only [hbase]
  repeat' split
  all_goals first | rfl | omega

/-- The bit `i` of word `k` tells about byte `64 * k + i`. -/
theorem contains_ofNat_add (s : ByteSet) {k i : Nat} (hk : k < 4) (hi : i < 64) :
    s.contains (UInt8.ofNat (64 * k + i)) =
      (s.word (UInt8.ofNat (64 * k))).toBitVec.getLsbD i := by
  rw [contains_eq_getLsbD, word_ofNat_add s hk hi, toNat_ofNat_add hk hi,
    show (64 * k + i) % 64 = i by omega]

theorem word_eq_of_contains (h : ∀ b, s.contains b = t.contains b) {k : Nat} (hk : k < 4) :
    s.word (UInt8.ofNat (64 * k)) = t.word (UInt8.ofNat (64 * k)) := by
  apply UInt64.toBitVec_inj.1
  apply BitVec.eq_of_getLsbD_eq
  intro i hi
  rw [← contains_ofNat_add s hk hi, ← contains_ofNat_add t hk hi, h]

theorem ext_contains (h : ∀ b, s.contains b = t.contains b) : s = t := by
  have h0 := word_eq_of_contains h (k := 0) (by decide)
  have h1 := word_eq_of_contains h (k := 1) (by decide)
  have h2 := word_eq_of_contains h (k := 2) (by decide)
  have h3 := word_eq_of_contains h (k := 3) (by decide)
  exact ByteSet.ext h0 h1 h2 h3

theorem isEmpty_iff : s.isEmpty = true ↔ ∀ b, s.contains b = false := by
  constructor
  · intro h b
    simp only [isEmpty, Bool.and_eq_true, beq_iff_eq] at h
    have : s = empty := ByteSet.ext h.1.1.1 h.1.1.2 h.1.2 h.2
    simp [this]
  · intro h
    have : s = empty := ext_contains fun b => by simp [h b]
    rw [this]
    rfl

/-! ### The set as a list -/

@[simp] theorem mem_toList : b ∈ s.toList ↔ s.contains b = true := by
  rw [toList, List.mem_filter]
  exact and_iff_right (mem_allBytes b)

theorem pairwise_toList (s : ByteSet) : s.toList.Pairwise (· < ·) := by
  refine List.Pairwise.filter _ ?_
  rw [allBytes, List.pairwise_map]
  refine List.pairwise_lt_range.imp_of_mem fun {i j} hi hj hij => ?_
  rw [List.mem_range] at hi hj
  rw [UInt8.lt_iff_toNat_lt, UInt8.toNat_ofNat_of_lt' hi, UInt8.toNat_ofNat_of_lt' hj]
  exact hij

theorem countP_range'_eq_bitCount (s : ByteSet) {k : Nat} (hk : k < 4) :
    (List.range' (64 * k) 64).countP (fun n => s.contains (UInt8.ofNat n)) =
      bitCount (s.word (UInt8.ofNat (64 * k))) := by
  rw [bitCount, List.range'_eq_map_range, List.countP_map]
  apply List.countP_congr
  intro i hi
  simp only [Function.comp_apply, contains_ofNat_add s hk (List.mem_range.1 hi)]

theorem length_toList (s : ByteSet) : s.toList.length = s.size := by
  have hsplit : List.range 256 = List.range' (64 * 0) 64 ++ List.range' (64 * 1) 64 ++
      List.range' (64 * 2) 64 ++ List.range' (64 * 3) 64 := by
    have join : ∀ i n, List.range' i 64 ++ List.range' (i + 64) n = List.range' i (64 + n) :=
      fun i n => List.range'_append_1
    rw [List.append_assoc, List.append_assoc, join (64 * 2), join (64 * 1), join (64 * 0),
      List.range_eq_range']
  have h0 := countP_range'_eq_bitCount s (k := 0) (by decide)
  have h1 := countP_range'_eq_bitCount s (k := 1) (by decide)
  have h2 := countP_range'_eq_bitCount s (k := 2) (by decide)
  have h3 := countP_range'_eq_bitCount s (k := 3) (by decide)
  rw [toList, ← List.countP_eq_length_filter, allBytes, List.countP_map, hsplit]
  simp only [List.countP_append, Function.comp_def, h0, h1, h2, h3]
  rfl

end ShellTokens.ByteSet
