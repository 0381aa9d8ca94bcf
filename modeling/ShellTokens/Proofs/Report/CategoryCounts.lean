import Mathlib.Algebra.BigOperators.Group.List.Lemmas
import Mathlib.Algebra.GroupWithZero.Nat
import Mathlib.Data.List.Dedup
import ShellTokens.Proofs.Report.FileReport
import ShellTokens.Shell.Grammar

/-!
# The numbers in a histogram

A histogram has one entry for each category among the tokens, and its entries are in a strict order:
by number, the greater one first, then by category. So there is one histogram only for given
numbers, and neither the order of the tokens nor the order in which a counting map yields its
entries can be seen in it.
-/

namespace ShellTokens

/-- A stable sort leaves what it does not tell apart in its order. -/
theorem pairwise_mergeSort_of_pairwise {α : Type} {le : α → α → Bool} {r : α → α → Prop}
    (htrans : ∀ a b c, le a b → le b c → le a c) (htotal : ∀ a b, le a b || le b a) {l : List α}
    (h : l.Pairwise r) : (l.mergeSort le).Pairwise fun a b => le a b ∧ (le b a → r a b) := by
  have hsorted := List.pairwise_mergeSort (List.zipIdxLE_trans htrans)
    (List.zipIdxLE_total htotal) l.zipIdx
  have hplaces : (l.zipIdx.mergeSort (List.zipIdxLE le)).Pairwise fun p q => p.2 ≠ q.2 := by
    have hnodup : (l.zipIdx.map Prod.snd).Nodup := by
      rw [List.zipIdx_map_snd]
      exact List.nodup_range'
    exact List.pairwise_map.1 (((List.mergeSort_perm _ _).map Prod.snd).nodup_iff.2 hnodup)
  rw [← List.mergeSort_zipIdx, List.pairwise_map]
  refine (hsorted.and hplaces).imp_of_mem ?_
  rintro ⟨a, i⟩ ⟨b, j⟩ hi hj ⟨hle, hne⟩
  rw [List.mem_mergeSort, List.mem_zipIdx_iff_getElem?, List.getElem?_eq_some_iff] at hi hj
  obtain ⟨hi, hia⟩ := hi
  obtain ⟨hj, hjb⟩ := hj
  simp only [List.zipIdxLE, Bool.if_false_right, Bool.and_eq_true, decide_eq_true_eq] at hle
  obtain ⟨hle, hback⟩ := hle
  refine ⟨hle, fun hge => ?_⟩
  rw [if_pos hge, decide_eq_true_eq] at hback
  rw [← hia, ← hjb]
  exact List.pairwise_iff_getElem.1 h i j hi hj (Nat.lt_of_le_of_ne hback hne)

/-! ### The order of the entries -/

theorem Category.index_injective : Function.Injective Category.index := by
  intro c d h
  have hall : ∀ c ∈ all, ∀ d ∈ all, c.index = d.index → c = d := by decide
  exact hall c c.mem_all d d.mem_all h

theorem Category.pairwise_all : Category.all.Pairwise fun c d => c.index < d.index := by
  decide

/-- The entry stands before the other one: its number is greater, or it is the same and the category
is an earlier one. -/
def Outranks (x y : Category × Nat) : Prop :=
  y.2 < x.2 ∨ y.2 = x.2 ∧ x.1.index < y.1.index

instance (x y : Category × Nat) : Decidable (Outranks x y) :=
  inferInstanceAs (Decidable (_ ∨ _))

namespace Outranks

variable {x y z : Category × Nat}

theorem asymm (h : Outranks x y) : ¬ Outranks y x := by
  unfold Outranks at *
  omega

theorem ne (h : Outranks x y) : x ≠ y := by
  rintro rfl
  exact h.asymm h

theorem trichotomous (hxy : ¬ Outranks x y) (hyx : ¬ Outranks y x) : x = y := by
  unfold Outranks at *
  have hindex : x.1.index = y.1.index := by omega
  exact Prod.ext (Category.index_injective hindex) (by omega)

/-- The order leaves no choice. -/
theorem eq_of_perm {entries others : List (Category × Nat)} (hperm : entries.Perm others)
    (h : entries.Pairwise Outranks) (h' : others.Pairwise Outranks) : entries = others :=
  hperm.eq_of_pairwise (fun _ _ _ _ hxy hyx => absurd hyx hxy.asymm) h h'

end Outranks

/-- How the entries are compared: the greater number comes first, categories break ties. -/
def rankLE (x y : Category × Nat) : Bool :=
  y.2 < x.2 || (y.2 = x.2 && x.1.index ≤ y.1.index)

theorem rankLE_trans (x y z : Category × Nat) (hxy : rankLE x y) (hyz : rankLE y z) :
    rankLE x z := by
  simp only [rankLE, Bool.or_eq_true, Bool.and_eq_true, decide_eq_true_eq] at *
  omega

theorem rankLE_total (x y : Category × Nat) : rankLE x y || rankLE y x := by
  simp only [rankLE, Bool.or_eq_true, Bool.and_eq_true, decide_eq_true_eq]
  omega

theorem rankLE_iff {x y : Category × Nat} : rankLE x y ↔ x = y ∨ Outranks x y := by
  have hnot : rankLE x y ↔ ¬ Outranks y x := by
    simp only [rankLE, Outranks, Bool.or_eq_true, Bool.and_eq_true, decide_eq_true_eq]
    omega
  rw [hnot]
  constructor
  · intro hyx
    obtain hxy | hxy := Decidable.em (Outranks x y)
    · exact .inr hxy
    · exact .inl (Outranks.trichotomous hxy hyx)
  · rintro (rfl | hxy)
    · exact fun h => h.ne rfl
    · exact hxy.asymm

/-! ### One histogram for given numbers -/

/-- The category of each token. -/
def categories (tokens : List Token) : List Category :=
  tokens.map fun t => t.terminal.category

theorem tokenCount_eq_count (tokens : List Token) (c : Category) :
    tokenCount tokens c = (categories tokens).count c := by
  rw [categories, List.count_eq_countP, List.countP_map]
  rfl

theorem tokenCount_pos_iff {tokens : List Token} {c : Category} :
    0 < tokenCount tokens c ↔ ∃ t ∈ tokens, t.terminal.category = c := by
  simp [tokenCount, List.countP_pos_iff]

/-- The entries are the categories of the tokens with their numbers, in a strict order. -/
structure IsHistogram (tokens : List Token) (entries : List (Category × Nat)) : Prop where
  mem_iff : ∀ c n, (c, n) ∈ entries ↔ n = tokenCount tokens c ∧ 0 < n
  ordered : entries.Pairwise Outranks

namespace IsHistogram

variable {tokens : List Token} {entries others : List (Category × Nat)}

theorem nodup (h : IsHistogram tokens entries) : entries.Nodup :=
  h.ordered.imp Outranks.ne

theorem eq (h : IsHistogram tokens entries) (h' : IsHistogram tokens others) :
    entries = others := by
  have hperm : entries.Perm others := by
    rw [List.perm_ext_iff_of_nodup h.nodup h'.nodup]
    rintro ⟨c, n⟩
    rw [h.mem_iff, h'.mem_iff]
  exact Outranks.eq_of_perm hperm h.ordered h'.ordered

/-- No category has two entries. -/
theorem nodup_categories (h : IsHistogram tokens entries) : (entries.map Prod.fst).Nodup := by
  refine List.Nodup.map_on ?_ h.nodup
  rintro ⟨c, n⟩ hn ⟨d, m⟩ hm hcd
  obtain rfl : c = d := hcd
  rw [((h.mem_iff c n).1 hn).1, ((h.mem_iff c m).1 hm).1]

theorem mem_categories_iff (h : IsHistogram tokens entries) {c : Category} :
    c ∈ entries.map Prod.fst ↔ ∃ t ∈ tokens, t.terminal.category = c := by
  rw [← tokenCount_pos_iff]
  constructor
  · intro hc
    obtain ⟨⟨d, n⟩, hn, rfl⟩ := List.mem_map.1 hc
    obtain ⟨rfl, hpos⟩ := (h.mem_iff d n).1 hn
    exact hpos
  · exact fun hpos => List.mem_map.2 ⟨_, (h.mem_iff c _).2 ⟨rfl, hpos⟩, rfl⟩

/-- Each token is counted in one entry. -/
theorem sum_counts (h : IsHistogram tokens entries) :
    (entries.map Prod.snd).sum = tokens.length := by
  have hcounts : entries.map Prod.snd =
      (entries.map Prod.fst).map fun c => (categories tokens).count c := by
    rw [List.map_map]
    refine List.map_congr_left ?_
    rintro ⟨c, n⟩ hn
    rw [((h.mem_iff c n).1 hn).1, tokenCount_eq_count]
    rfl
  have hdedup : (entries.map Prod.fst).Perm (categories tokens).dedup := by
    rw [List.perm_ext_iff_of_nodup h.nodup_categories (List.nodup_dedup _)]
    intro c
    rw [h.mem_categories_iff, List.mem_dedup, categories, List.mem_map]
  calc (entries.map Prod.snd).sum
      = ((categories tokens).dedup.map fun c => (categories tokens).count c).sum := by
        rw [hcounts]
        exact (hdedup.map _).sum_eq
    _ = (categories tokens).length := List.sum_map_count_dedup_eq_length _
    _ = tokens.length := List.length_map _

end IsHistogram

theorem isHistogram_histogram (tokens : List Token) : IsHistogram tokens (histogram tokens) where
  mem_iff _ _ := mem_histogram
  ordered := by
    -- before the sort the categories stand in their own order
    have hpresent := (Category.pairwise_all.filter fun c => 0 < tokenCount tokens c).map
      (fun c => (c, tokenCount tokens c)) (S := fun x y => x.1.index < y.1.index)
      fun c d h => h
    refine (pairwise_mergeSort_of_pairwise ?_ ?_ hpresent).imp ?_
    · simp only [decide_eq_true_eq]
      omega
    · simp only [Bool.or_eq_true, decide_eq_true_eq]
      omega
    · simp only [decide_eq_true_eq, Outranks]
      intro x y h
      omega

/-- Only the categories of the tokens matter, and not their order. -/
theorem histogram_congr {tokens others : List Token}
    (h : (categories others).Perm (categories tokens)) : histogram others = histogram tokens := by
  have hcount : tokenCount others = tokenCount tokens := by
    funext c
    rw [tokenCount_eq_count, tokenCount_eq_count, h.count_eq]
  rw [histogram, histogram, hcount]

/-! ### Counting in a map -/

deriving instance Hashable for Category

/-- The numbers with one more token. -/
def countOne (counts : Std.HashMap Category Nat) (t : Token) : Std.HashMap Category Nat :=
  counts.alter t.terminal.category fun n? => some (n?.getD 0 + 1)

/-- The numbers of the tokens of each category, counted token by token. -/
def countAll (tokens : List Token) : Std.HashMap Category Nat :=
  tokens.foldl countOne ∅

/-- The map has the number of each category, and only categories of the tokens. -/
structure Counts (tokens : List Token) (counts : Std.HashMap Category Nat) : Prop where
  getD_eq : ∀ c : Category, counts[c]?.getD 0 = tokenCount tokens c
  pos : ∀ (c : Category) (n : Nat), counts[c]? = some n → 0 < n

namespace Counts

variable {tokens : List Token} {counts : Std.HashMap Category Nat}

theorem concat (h : Counts tokens counts) (t : Token) :
    Counts (tokens ++ [t]) (countOne counts t) := by
  have hcount : ∀ c, tokenCount (tokens ++ [t]) c =
      tokenCount tokens c + if t.terminal.category = c then 1 else 0 := by
    intro c
    simp [tokenCount, List.countP_append, List.countP_singleton]
  constructor
  · intro c
    rw [countOne, Std.HashMap.getElem?_alter, hcount, ← h.getD_eq]
    by_cases hc : t.terminal.category = c
    · simp [hc]
    · simp [hc]
  · intro c n hn
    rw [countOne, Std.HashMap.getElem?_alter] at hn
    split at hn
    · exact Option.some_inj.1 hn ▸ Nat.succ_pos _
    · exact h.pos c n hn

theorem mem_toList_iff (h : Counts tokens counts) {c : Category} {n : Nat} :
    (c, n) ∈ counts.toList ↔ n = tokenCount tokens c ∧ 0 < n := by
  rw [Std.HashMap.mem_toList_iff_getElem?_eq_some, ← h.getD_eq]
  constructor
  · intro hn
    exact ⟨by rw [hn, Option.getD_some], h.pos c n hn⟩
  · rintro ⟨rfl, hpos⟩
    cases hn : counts[c]? with
    | none => simp [hn] at hpos
    | some n => rfl

end Counts

theorem counts_countAll (tokens : List Token) : Counts tokens (countAll tokens) := by
  -- from the end, since the last token is counted last
  induction tokens using List.reverseRecOn with
  | nil =>
    constructor
    · simp [countAll, tokenCount]
    · simp [countAll]
  | append_singleton tokens t ih =>
    rw [countAll, List.foldl_concat]
    exact ih.concat t

/-- In whatever order the map yields its entries, sorting them gives the histogram. -/
theorem mergeSort_eq_histogram {tokens : List Token} {entries : List (Category × Nat)}
    (h : entries.Perm (countAll tokens).toList) : entries.mergeSort rankLE = histogram tokens := by
  have hnodup : (countAll tokens).toList.Nodup :=
    Std.HashMap.distinct_keys_toList.imp fun hne heq => by simp [heq] at hne
  have hsorted : IsHistogram tokens (entries.mergeSort rankLE) := by
    constructor
    · intro c n
      rw [List.mem_mergeSort, h.mem_iff, (counts_countAll tokens).mem_toList_iff]
    · have hdistinct : (entries.mergeSort rankLE).Nodup :=
        ((List.mergeSort_perm _ _).trans h).nodup_iff.2 hnodup
      refine ((List.pairwise_mergeSort rankLE_trans rankLE_total entries).and hdistinct).imp ?_
      rintro x y ⟨hle, hne⟩
      exact (rankLE_iff.1 hle).resolve_left hne
  exact hsorted.eq (isHistogram_histogram tokens)

/-! ### The histogram of a file -/

variable {g : Grammar} {read : String → Except ReadError Bytes} {path : String}
  {options : FileOptions} {content : Bytes}

/-- The total in the header of the report on a file, and the histogram at its end. -/
theorem reportFile_counts_categories (hread : read path = .ok content)
    (hstats : options.stats = true) :
    let tokens := fileTokens g options.mode content
    let entries := histogram tokens
    let total := (entries.map Prod.snd).sum
    let counts := s!"{total} tokens, {(Line.split content).length} lines, mode {options.mode.name}"
    (reportFile g read path options).runWith .unbounded =
      (.ok (), ⟨Bytes.ofString (String.join
        (s!"Tokens for '{path}' ({counts}):\n" ::
          (fileEntries g options.mode content).map FileEntry.text ++ histogramTexts tokens)),
        none⟩) ∧
    total = tokens.length ∧
    (entries.map Prod.fst).Nodup ∧
    (∀ c n, (c, n) ∈ entries ↔
      n = tokenCount tokens c ∧ ∃ t ∈ tokens, t.terminal.category = c) ∧
    entries.Pairwise Outranks ∧
    (∀ yielded : List (Category × Nat), yielded.Perm (countAll tokens).toList →
      yielded.mergeSort rankLE = entries) ∧
    (∀ others, (categories others).Perm (categories tokens) → histogram others = entries) ∧
    ∀ content', (Line.split content').Perm (Line.split content) →
      histogram (fileTokens g options.mode content') = entries := by
  intro tokens entries total counts
  have hentries : IsHistogram tokens entries := isHistogram_histogram tokens
  have htotal : total = tokens.length := hentries.sum_counts
  refine ⟨?_, htotal, hentries.nodup_categories, ?_, hentries.ordered,
    fun _ => mergeSort_eq_histogram, fun _ => histogram_congr, ?_⟩
  · have hheader : fileHeader g path options.mode content =
        s!"Tokens for '{path}' ({counts}):\n" := by
      unfold fileHeader
      rw [← htotal]
    rw [runWith_reportFile hread, fileTexts, if_pos hstats, hheader]
  · intro c n
    rw [hentries.mem_iff, ← tokenCount_pos_iff]
    exact and_congr_right fun hn => by rw [hn]
  · exact fun content' hlines => histogram_congr ((hlines.flatMap_right _).map _)

/-- Blanks and operators are equally many, and the two lines may be exchanged. -/
theorem reportFile_counts_categories_two_lines :
    (reportFile Shell.grammar (fun _ => .ok (Bytes.ofString "a b c\nd\n")) "f"
        { stats := true }).runWith .unbounded =
      (.ok (), ⟨Bytes.ofString (String.join
        ("Tokens for 'f' (8 tokens, 2 lines, mode ShCommand):\n" ::
          (fileEntries Shell.grammar .command (Bytes.ofString "a b c\nd\n")).map FileEntry.text ++
          ["Token kinds:\n", "  Lit          4\n", "  WS           2\n", "  Op           2\n"])),
        none⟩) ∧
    histogram (fileTokens Shell.grammar .command (Bytes.ofString "d\na b c\n")) =
      [(.literal, 4), (.space, 2), (.operator, 2)] := by
  have hhistogram : histogram (fileTokens Shell.grammar .command (Bytes.ofString "a b c\nd\n")) =
      [(.literal, 4), (.space, 2), (.operator, 2)] := by
    have hcategories : categories (fileTokens Shell.grammar .command
        (Bytes.ofString "a b c\nd\n")) =
        [.literal, .space, .literal, .space, .literal, .operator, .literal, .operator] := by
      decide +kernel
    refine Outranks.eq_of_perm ?_ (isHistogram_histogram _).ordered (by decide)
    simp only [histogram, tokenCount_eq_count, hcategories]
    exact (List.mergeSort_perm _ _).trans (by decide)
  have hrows : histogramTexts (fileTokens Shell.grammar .command (Bytes.ofString "a b c\nd\n")) =
      ["Token kinds:\n", "  Lit          4\n", "  WS           2\n", "  Op           2\n"] := by
    rw [histogramTexts, hhistogram]
    decide +kernel
  have hlines : (Line.split (Bytes.ofString "a b c\nd\n")).length = 2 := by decide +kernel
  obtain ⟨hreport, _, _, _, _, _, _, hexchanged⟩ := @reportFile_counts_categories Shell.grammar
    (fun _ => .ok (Bytes.ofString "a b c\nd\n")) "f" { stats := true } _ rfl rfl
  refine ⟨?_, (hexchanged (Bytes.ofString "d\na b c\n") (by decide +kernel)).trans hhistogram⟩
  rw [hrows, hhistogram, hlines] at hreport
  exact hreport

end ShellTokens
