import ShellTokens.Proofs.Pattern.ByteClasses
import ShellTokens.Proofs.Pattern.ByteRuns
import ShellTokens.Proofs.Pattern.SimpleForm
import ShellTokens.Proofs.Table.NextByte

/-!
# Tables as states

A table together with the bytes that are read is an automaton: its states are the tables that are
left, in simple form, and the fallback of a state is what has been found when no further byte is
taken. The match is followed from state to state: over a byte that some rule takes by itself, over
the bytes of a word, over a run of bytes that leave the state as it is, and up to a byte with which
no rule goes on. Bytes that the table does not tell apart lead to the same state.
-/

namespace ShellTokens

namespace Rule

variable {r q : Rule} {input : Bytes} {i : Nat}

theorem eq_of_pattern_of_terminal (hpattern : r.pattern = q.pattern)
    (hterminal : r.terminal = q.terminal) : r = q := by
  obtain ⟨pattern, terminal, first, rfl⟩ := r
  obtain ⟨pattern', terminal', first', rfl⟩ := q
  obtain rfl : pattern = pattern' := hpattern
  obtain rfl : terminal = terminal' := hterminal
  rfl

instance : DecidableEq Rule := fun r q =>
  decidable_of_iff (r.pattern = q.pattern ∧ r.terminal = q.terminal)
    ⟨fun h => eq_of_pattern_of_terminal h.1 h.2, fun h => h ▸ ⟨rfl, rfl⟩⟩

def simplify (r : Rule) : Rule :=
  { pattern := r.pattern.simplify, terminal := r.terminal }

theorem longest_simplify (hi : i ≤ input.size) :
    r.simplify.longest input i = r.longest input i := by
  have hends : r.simplify.pattern.ends input i = r.pattern.ends input i := by
    apply List.Pairwise.eq_of_mem_iff (Pattern.ascending_ends _ _ _) (Pattern.ascending_ends _ _ _)
    intro e
    rw [Pattern.mem_ends_iff hi, Pattern.mem_ends_iff hi, simplify, Pattern.language_simplify]
  rw [Rule.longest_eq, Rule.longest_eq, Pattern.longest_eq_max?, Pattern.longest_eq_max?, hends]

end Rule

namespace Table

variable {t u : Table} {input : Bytes} {i : Nat} {b : UInt8} {word : List UInt8}

instance : DecidableEq Table := fun t u =>
  decidable_of_iff (t.rules = u.rules ∧ t.fallback = u.fallback) (by
    obtain ⟨rules, fallback⟩ := t
    obtain ⟨rules', fallback'⟩ := u
    simp)

/-! ### One byte -/

def simplify (t : Table) : Table :=
  { t with rules := t.rules.map Rule.simplify }

theorem bestMatch_simplify (hi : i ≤ input.size) :
    t.simplify.bestMatch input i = t.bestMatch input i := by
  have himprove : ∀ best r, improve input i best (Rule.simplify r) = improve input i best r := by
    intro best r
    rw [improve, improve, Rule.longest_simplify hi]
    rfl
  simp only [bestMatch, simplify, List.foldl_map, himprove]

/-- The state behind the byte `b`. -/
def next (b : UInt8) (t : Table) : Table :=
  (t.after b).simplify

theorem Consistent.next (ht : t.Consistent) (b : UInt8) : (t.next b).Consistent := by
  intro r hr
  obtain ⟨q, hq, rfl⟩ := List.mem_map.1 hr
  exact Pattern.consistent_simplify (ht.after b q hq)

theorem bestMatch_next (hb : input[i]? = some b) :
    (t.next b).bestMatch input (i + 1) = (t.after b).bestMatch input (i + 1) :=
  bestMatch_simplify (Array.getElem?_eq_some_iff.1 hb).1

/-- Over a byte that some rule takes by itself, the match is that of the next state. -/
theorem bestMatch_eq_next (ht : t.Consistent) (hb : input[i]? = some b)
    (htakes : t.takes b = true) :
    t.bestMatch input i = (t.next b).bestMatch input (i + 1) := by
  rw [bestMatch_next hb, bestMatch_eq_after ht hb htakes]

theorem takes_of_subset (hsubset : t.rules ⊆ u.rules) (htakes : t.takes b = true) :
    u.takes b = true := by
  obtain ⟨r, hr, hafter⟩ := List.any_eq_true.1 htakes
  exact List.any_eq_true.2 ⟨r, hsubset hr, hafter⟩

theorem lt_stop_of_takes (ht : t.Consistent) (hb : input[i]? = some b) (htakes : t.takes b = true) :
    i < (t.bestMatch input i).stop := by
  rw [bestMatch_eq_next ht hb htakes]
  exact ((t.next b).isBest_bestMatch input (i + 1)).le_stop

/-- A match that goes beyond the byte is that of the next state, whether or not some rule takes the
byte by itself. -/
theorem bestMatch_eq_next_of_lt (ht : t.Consistent) (hb : input[i]? = some b)
    (hlt : i + 1 < ((t.next b).bestMatch input (i + 1)).stop) :
    t.bestMatch input i = (t.next b).bestMatch input (i + 1) := by
  rw [bestMatch_next hb] at hlt ⊢
  exact (t.isBest_bestMatch input i).unique
    (((t.after b).isBest_bestMatch input (i + 1)).of_after_of_lt ht hb hlt)

/-- Over a byte that no rule takes by itself, there is no match if none goes beyond it. -/
theorem bestMatch_of_not_takes (ht : t.Consistent) (hb : input[i]? = some b)
    (htakes : t.takes b = false)
    (hstop : ((t.next b).bestMatch input (i + 1)).stop ≤ i + 1) :
    t.bestMatch input i = ⟨t.fallback, i⟩ := by
  rw [bestMatch_next hb] at hstop
  apply (t.isBest_bestMatch input i).eq_fallback
  intro r hr e he
  by_contra hlt
  obtain heq | hgt := Nat.eq_or_lt_of_le (Nat.lt_of_not_le hlt)
  · subst heq
    exact List.any_eq_false.1 htakes r hr ((Rule.nullable_after_iff (ht r hr) hb).2 he)
  · obtain ⟨hmem, hafter⟩ := after_mem_rules_after ht hb hr he hgt
    have := ((t.after b).isBest_bestMatch input (i + 1)).le_of_mem_ends hmem hafter
    omega

/-! ### Where a match stops -/

/-- The bytes with which some rule goes on. -/
def firstBytes (t : Table) : ByteSet :=
  t.rules.foldr (fun r set => r.first ∪ set) ∅

theorem contains_firstBytes :
    t.firstBytes.contains b = t.rules.any fun r => r.first.contains b := by
  obtain ⟨rules, fallback⟩ := t
  rw [firstBytes]
  induction rules with
  | nil => simp
  | cons r rules ih => rw [List.foldr_cons, ByteSet.contains_cup, ih, List.any_cons]

theorem bestMatch_of_not_firstBytes
    (h : ∀ b, input[i]? = some b → t.firstBytes.contains b = false) :
    t.bestMatch input i = ⟨t.fallback, i⟩ := by
  apply (t.isBest_bestMatch input i).eq_fallback
  intro r hr
  have hnone : r.longest input i = none := by
    unfold Rule.longest
    split
    · next b hb =>
      have hnone := h b hb
      rw [contains_firstBytes, List.any_eq_false] at hnone
      exact if_neg (hnone r hr)
    · rfl
  rw [Rule.longest_eq] at hnone
  exact Pattern.longest_eq_none_iff.1 hnone

theorem bestMatch_of_firstBytes {bytes : List UInt8} (h : t.firstBytes = ByteSet.ofList bytes)
    (hnone : ∀ b ∈ bytes, input[i]? ≠ some b) : t.bestMatch input i = ⟨t.fallback, i⟩ := by
  apply bestMatch_of_not_firstBytes
  intro b hb
  have hnot : b ∉ bytes := fun hmem => hnone b hmem hb
  simpa [h] using hnot

/-! ### Words -/

/-- The state behind the bytes of the word. -/
def along (t : Table) (word : List UInt8) : Table :=
  word.foldl (fun t b => t.next b) t

/-- Whether each byte of the word is taken by itself, one after the other. -/
def takesAll (t : Table) : List UInt8 → Bool
  | [] => true
  | b :: word => t.takes b && (t.next b).takesAll word

theorem Consistent.along (ht : t.Consistent) (word : List UInt8) : (t.along word).Consistent := by
  induction word generalizing t with
  | nil => exact ht
  | cons b word ih => exact ih (ht.next b)

theorem bestMatch_eq_along (ht : t.Consistent) (h : t.takesAll word = true)
    (hword : word <+: input.toList.drop i) :
    t.bestMatch input i = (t.along word).bestMatch input (i + word.length) := by
  induction word generalizing t i with
  | nil => rfl
  | cons b word ih =>
    have hb := Bytes.getElem?_of_cons_prefix hword
    rw [Bytes.drop_toList_of_getElem? hb, List.cons_prefix_cons] at hword
    rw [takesAll, Bool.and_eq_true] at h
    rw [bestMatch_eq_next ht hb h.1, ih (ht.next b) h.2 hword.2, List.length_cons, Nat.add_assoc,
      Nat.add_comm 1]
    rfl

/-! ### Classes of bytes -/

variable {cls : ByteSet}

/-- Whether each byte of the class is taken and leads to the state `u`. One of them is enough to see
this if the rules do not tell them apart. -/
def moves (t : Table) (cls : ByteSet) (u : Table) : Bool :=
  (t.rules.all fun r => r.pattern.uniformOn cls) &&
    (ByteSet.allBytes.find? cls.contains).all fun b => t.takes b && decide (t.next b = u)

theorem of_moves (h : t.moves cls u = true) (hb : cls.contains b = true) :
    t.takes b = true ∧ t.next b = u := by
  rw [moves, Bool.and_eq_true, List.all_eq_true] at h
  obtain ⟨huniform, hfound⟩ := h
  obtain ⟨c, hfind⟩ : ∃ c, ByteSet.allBytes.find? cls.contains = some c :=
    Option.isSome_iff_exists.1 (List.find?_isSome.2 ⟨b, ByteSet.mem_allBytes b, hb⟩)
  have hafter : ∀ r ∈ t.rules, Rule.after b r = Rule.after c r := fun r hr =>
    Rule.eq_of_pattern_of_terminal
      (Pattern.after_eq_of_uniformOn (huniform r hr) hb (List.find?_some hfind)) rfl
  have htakes : t.takes b = t.takes c := by
    rw [takes, takes, Bool.eq_iff_iff, List.any_eq_true, List.any_eq_true]
    exact exists_congr fun r => and_congr_right fun hr => by rw [hafter r hr]
  have hstate : t.after b = t.after c := by
    have hfind? : (t.rules.find? fun r => (r.after b).pattern.nullable) =
        t.rules.find? fun r => (r.after c).pattern.nullable :=
      List.find?_congr fun r hr => by rw [hafter r hr]
    rw [after, after, List.map_congr_left hafter, hfind?]
  rw [hfind, Option.all_some, Bool.and_eq_true, decide_eq_true_eq] at hfound
  exact ⟨htakes.trans hfound.1, (congrArg simplify hstate).trans hfound.2⟩

theorem bestMatch_of_moves (ht : t.Consistent) (h : t.moves cls u = true)
    (hb : input[i]? = some b) (hcls : cls.contains b = true) :
    t.bestMatch input i = u.bestMatch input (i + 1) := by
  obtain ⟨htakes, hnext⟩ := of_moves h hcls
  rw [bestMatch_eq_next ht hb htakes, hnext]

/-- Bytes that leave the state as it is do not change what the match is. -/
theorem bestMatch_of_loops (ht : t.Consistent) (h : t.moves cls t = true) (input : Bytes)
    (i : Nat) :
    t.bestMatch input i =
      t.bestMatch input (i + ((input.toList.drop i).takeWhile cls.contains).length) := by
  induction hrest : input.toList.drop i generalizing i with
  | nil => rfl
  | cons b rest ih =>
    have hb : input[i]? = some b := by
      apply Bytes.getElem?_of_cons_prefix (w := rest)
      rw [hrest]
    rw [Bytes.drop_toList_of_getElem? hb, List.cons.injEq] at hrest
    by_cases hcls : cls.contains b = true
    · rw [bestMatch_of_moves ht h hb hcls, ih (i + 1) hrest.2, List.takeWhile_cons_of_pos hcls,
        List.length_cons, Nat.add_assoc, Nat.add_comm 1]
    · rw [List.takeWhile_cons_of_neg hcls, List.length_nil, Nat.add_zero]

/-- The state in which only bytes of the set are taken, any number of them. -/
def run (set : ByteSet) (terminal : Terminal) : Table where
  rules := [{ pattern := Pattern.star set, terminal }]
  fallback := terminal

/-- A run that may be empty is taken like one that may not, since a match has some width. -/
theorem bestMatch_runOf (set : ByteSet) {min : Nat} (hmin : min ≤ 1) (terminal : Terminal)
    (input : Bytes) (i : Nat) :
    bestMatch ⟨[{ pattern := Pattern.runOf set min, terminal }], terminal⟩ input i =
      ⟨terminal, i + ((input.toList.drop i).takeWhile set.contains).length⟩ := by
  rw [← Bytes.countWhile_eq, bestMatch, List.foldl_cons, List.foldl_nil, improve, Rule.longest_eq]
  dsimp only [Pattern.runOf, Pattern.longest]
  rw [ByteRun.length_eq]
  by_cases hzero : input.countWhile set.contains i = 0
  · simp [hzero]
  · have hpos := Nat.pos_of_ne_zero hzero
    simp [hpos, hmin.trans hpos]

theorem bestMatch_run (set : ByteSet) (terminal : Terminal) (input : Bytes) (i : Nat) :
    (run set terminal).bestMatch input i =
      ⟨terminal, i + ((input.toList.drop i).takeWhile set.contains).length⟩ :=
  bestMatch_runOf set (Nat.zero_le 1) terminal input i

/-- A byte of a set and all that follow it, where some bytes of the set lead to a run of them. -/
theorem bestMatch_of_moves_into_run (ht : t.Consistent) {set : ByteSet} {terminal : Terminal}
    (h : t.moves cls (run set terminal) = true) (hb : input[i]? = some b)
    (hcls : cls.contains b = true) (hset : set.contains b = true) :
    t.bestMatch input i =
      ⟨terminal, i + ((input.toList.drop i).takeWhile set.contains).length⟩ := by
  rw [bestMatch_of_moves ht h hb hcls, bestMatch_run, Bytes.drop_toList_of_getElem? hb,
    List.takeWhile_cons_of_pos hset, List.length_cons, Nat.add_assoc, Nat.add_comm 1]

theorem bestMatch_of_moves_run (ht : t.Consistent) {terminal : Terminal}
    (h : t.moves cls (run cls terminal) = true) (hb : input[i]? = some b)
    (hcls : cls.contains b = true) :
    t.bestMatch input i =
      ⟨terminal, i + ((input.toList.drop i).takeWhile cls.contains).length⟩ :=
  bestMatch_of_moves_into_run ht h hb hcls hcls

/-- The state in which only bytes of the set are taken, at most `n` of them. -/
def upTo (set : ByteSet) (n : Nat) (terminal : Terminal) : Table where
  rules := [{ pattern := .times (.oneOf set) 0 (some n), terminal }]
  fallback := terminal

theorem mem_ends_upTo {set : ByteSet} {n e : Nat} (hi : i ≤ input.size) :
    e ∈ (Pattern.times (.oneOf set) 0 (some n)).ends input i ↔
      i ≤ e ∧ e ≤ i + min n ((input.toList.drop i).takeWhile set.contains).length := by
  rw [Pattern.mem_ends_iff hi, ← Bytes.countWhile_eq]
  constructor
  · rintro ⟨w, hw, hprefix, rfl⟩
    obtain ⟨hmin, hmax, hall⟩ := Pattern.mem_language_times_oneOf.1 hw
    have hrun := (Bytes.spells_run (e := i + w.length)).1 ⟨w, ⟨hmin, hall⟩, hprefix, rfl⟩
    have hmost := hmax n rfl
    omega
  · rintro ⟨hie, he⟩
    have hrun : i + 0 ≤ e ∧ e ≤ i + input.countWhile set.contains i := by omega
    obtain ⟨w, ⟨hmin, hall⟩, hprefix, rfl⟩ := Bytes.spells_run.2 hrun
    refine ⟨w, Pattern.mem_language_times_oneOf.2 ⟨hmin, ?_, hall⟩, hprefix, rfl⟩
    rintro m ⟨⟩
    omega

theorem bestMatch_upTo (set : ByteSet) (n : Nat) (terminal : Terminal) (hi : i ≤ input.size) :
    (upTo set n terminal).bestMatch input i =
      ⟨terminal, i + min n ((input.toList.drop i).takeWhile set.contains).length⟩ := by
  set most := min n ((input.toList.drop i).takeWhile set.contains).length with hmost
  rw [bestMatch, upTo, List.foldl_cons, List.foldl_nil, improve, Rule.longest_eq]
  by_cases hzero : most = 0
  · have hnone : (Pattern.times (.oneOf set) 0 (some n)).longest input i = none := by
      rw [Pattern.longest_eq_none_iff]
      intro e he
      have := (mem_ends_upTo hi).1 he
      omega
    simp [hnone, hzero]
  · have hsome : (Pattern.times (.oneOf set) 0 (some n)).longest input i = some (i + most) := by
      rw [Pattern.longest_eq_some_iff]
      refine ⟨(mem_ends_upTo hi).2 ⟨Nat.le_add_right _ _, hmost ▸ Nat.le_refl _⟩, by omega, ?_⟩
      exact fun e he => ((mem_ends_upTo hi).1 he).2
    simp [hsome, Nat.pos_of_ne_zero hzero]

/-- A byte of the set and those that follow it, `n` of them at most. -/
theorem bestMatch_of_moves_upTo (ht : t.Consistent) {terminal : Terminal} {n : Nat} (hn : 0 < n)
    (h : t.moves cls (upTo cls (n - 1) terminal) = true) (hb : input[i]? = some b)
    (hcls : cls.contains b = true) :
    t.bestMatch input i =
      ⟨terminal, i + min n ((input.toList.drop i).takeWhile cls.contains).length⟩ := by
  have hi : i + 1 ≤ input.size := (Array.getElem?_eq_some_iff.1 hb).1
  rw [bestMatch_of_moves ht h hb hcls, bestMatch_upTo _ _ _ hi, Bytes.drop_toList_of_getElem? hb,
    List.takeWhile_cons_of_pos hcls, List.length_cons, Match.mk.injEq]
  exact ⟨rfl, by omega⟩

end Table

end ShellTokens
