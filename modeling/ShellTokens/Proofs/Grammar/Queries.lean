import ShellTokens.Proofs.Locality

/-!
# Refused queries

A token can be asked for in a view of a buffer, in a whole line, or in a view by the tag of a mode
and a position that may be negative. Each query is refused for the first fault of its arguments and
for nothing else. Where nothing is wrong, the three have the same answer, and no byte behind the
view has a part in it.
-/

namespace ShellTokens

/-! ### Tags of modes -/

namespace Mode

variable {tag : UInt8} {mode : Mode} {e : MatchError}

theorem getElem?_all_index (mode : Mode) : all[mode.index]? = some mode := by
  cases mode <;> rfl

theorem nodup_all : all.Nodup := by
  decide

theorem getElem?_all_eq_some_iff {k : Nat} : all[k]? = some mode ↔ mode.index = k := by
  constructor
  · intro h
    have hindex := getElem?_all_index mode
    have hlt : mode.index < all.length := (List.getElem?_eq_some_iff.1 hindex).1
    exact (List.getElem?_inj hlt nodup_all).1 (hindex.trans h.symm)
  · rintro rfl
    exact getElem?_all_index mode

theorem ofTag_eq_ok_iff : ofTag tag = .ok mode ↔ mode.index = tag.toNat := by
  rw [← getElem?_all_eq_some_iff, ofTag]
  cases all[tag.toNat]? with
  | none => simp
  | some m => simp

theorem ofTag_eq_error_iff :
    ofTag tag = .error e ↔ (∀ mode : Mode, mode.index ≠ tag.toNat) ∧ e = .invalidMode tag := by
  simp only [ne_eq, ← getElem?_all_eq_some_iff, ofTag]
  cases all[tag.toNat]? with
  | none => simp [eq_comm]
  | some m => simp

end Mode

namespace Grammar

variable {g : Grammar} {mode : Mode} {tag : UInt8} {buffer : Bytes} {len : Nat} {e : MatchError}

/-! ### Faults of a query -/

/-- What is wrong with a query for a token in a view. The length of the view is looked at first. -/
inductive ViewFault (buffer : Bytes) (len start : Nat) : MatchError → Prop
  | lengthExceedsBuffer (hlen : buffer.size < len) :
      ViewFault buffer len start (.lengthExceedsBuffer len buffer.size)
  | startOutOfRange (hlen : len ≤ buffer.size) (hstart : len < start) :
      ViewFault buffer len start (.startOutOfRange start len)

/-- What is wrong with a query by tag. The tag is looked at first, then the sign of the position,
and then the view. -/
inductive TaggedFault (tag : UInt8) (buffer : Bytes) (len : Nat) (start : Int) : MatchError → Prop
  | invalidMode (htag : ∀ mode : Mode, mode.index ≠ tag.toNat) :
      TaggedFault tag buffer len start (.invalidMode tag)
  | negativeStart (mode : Mode) (htag : mode.index = tag.toNat) (hstart : start < 0) :
      TaggedFault tag buffer len start (.negativeStart start)
  | view (mode : Mode) (htag : mode.index = tag.toNat) (n : Nat) (hstart : start = n)
      {e : MatchError} (h : ViewFault buffer len n e) : TaggedFault tag buffer len start e

theorem matchAt_eq_error_iff {start : Nat} :
    g.matchAt mode buffer len start = .error e ↔ ViewFault buffer len start e := by
  constructor
  · intro h
    unfold matchAt at h
    split at h
    · next hlen =>
      cases h
      exact ViewFault.lengthExceedsBuffer hlen
    · next hlen =>
      split at h
      · next hstart =>
        cases h
        exact ViewFault.startOutOfRange (Nat.not_lt.1 hlen) hstart
      · contradiction
  · intro h
    cases h with
    | lengthExceedsBuffer hlen => simp [matchAt, hlen]
    | startOutOfRange hlen hstart => simp [matchAt, Nat.not_lt.2 hlen, hstart]

theorem tokenAt_eq_error_iff {line : Line} {start : Nat} :
    g.tokenAt mode line start = .error e ↔
      line.size < start ∧ e = .startOutOfRange start line.size := by
  rw [tokenAt, matchAt_eq_error_iff]
  constructor
  · intro h
    cases h with
    | lengthExceedsBuffer hlen => exact absurd hlen (Nat.lt_irrefl _)
    | startOutOfRange _ hstart => exact ⟨hstart, rfl⟩
  · rintro ⟨hstart, rfl⟩
    exact ViewFault.startOutOfRange (Nat.le_refl _) hstart

theorem tokenAt_eq_ok_iff {line : Line} {start : Nat} {found : Match} :
    g.tokenAt mode line start = .ok found ↔
      start ≤ line.size ∧ found = (g.table mode).bestMatch line.bytes start := by
  by_cases hstart : start ≤ line.size
  · rw [tokenAt_eq_ok g mode hstart, Except.ok.injEq, eq_comm]
    exact (and_iff_right hstart).symm
  · rw [tokenAt_eq_error_iff.2 ⟨Nat.lt_of_not_le hstart, rfl⟩]
    simp [hstart]

theorem matchTagged_of_tag (htag : mode.index = tag.toNat) (start : Int) :
    g.matchTagged tag buffer len start =
      if start < 0 then .error (.negativeStart start)
      else g.matchAt mode buffer len start.toNat := by
  rw [matchTagged, Mode.ofTag_eq_ok_iff.2 htag]
  rfl

/-- With the tag of a mode and a position that is not negative, the query is one in that mode. -/
theorem matchTagged_eq_matchAt (htag : mode.index = tag.toNat) (n : Nat) :
    g.matchTagged tag buffer len n = g.matchAt mode buffer len n := by
  have hsign : ¬ (n : Int) < 0 := by omega
  rw [matchTagged_of_tag htag, if_neg hsign, Int.toNat_natCast]

theorem matchTagged_of_neg (htag : mode.index = tag.toNat) {start : Int} (hstart : start < 0) :
    g.matchTagged tag buffer len start = .error (.negativeStart start) := by
  rw [matchTagged_of_tag htag, if_pos hstart]

theorem matchTagged_of_invalid (htag : ∀ mode : Mode, mode.index ≠ tag.toNat) (start : Int) :
    g.matchTagged tag buffer len start = .error (.invalidMode tag) := by
  rw [matchTagged, Mode.ofTag_eq_error_iff.2 ⟨htag, rfl⟩]
  rfl

theorem matchTagged_eq_error_iff {start : Int} :
    g.matchTagged tag buffer len start = .error e ↔ TaggedFault tag buffer len start e := by
  constructor
  · intro h
    by_cases htag : ∃ mode : Mode, mode.index = tag.toNat
    · obtain ⟨mode, htag⟩ := htag
      obtain hneg | ⟨n, rfl⟩ : start < 0 ∨ ∃ n : Nat, start = n := by
        rcases start with n | n
        · exact Or.inr ⟨n, rfl⟩
        · exact Or.inl (Int.negSucc_lt_zero n)
      · rw [matchTagged_of_neg htag hneg] at h
        cases h
        exact TaggedFault.negativeStart mode htag hneg
      · rw [matchTagged_eq_matchAt htag, matchAt_eq_error_iff] at h
        exact TaggedFault.view mode htag n rfl h
    · have hnone : ∀ mode : Mode, mode.index ≠ tag.toNat := not_exists.1 htag
      rw [matchTagged_of_invalid hnone] at h
      cases h
      exact TaggedFault.invalidMode hnone
  · intro h
    cases h with
    | invalidMode htag => exact matchTagged_of_invalid htag start
    | negativeStart mode htag hstart => exact matchTagged_of_neg htag hstart
    | view mode htag n hstart h =>
      subst hstart
      rw [matchTagged_eq_matchAt htag]
      exact matchAt_eq_error_iff.2 h

/-! ### Answers -/

/-- The query in a view of a buffer is the query in a line that consists of the view. -/
theorem matchAt_eq_tokenAt_take {start : Nat} (hlen : len ≤ buffer.size) (hstart : start ≤ len) :
    g.matchAt mode buffer len start = g.tokenAt mode ⟨buffer.take len⟩ start := by
  have hsize : Line.size ⟨buffer.take len⟩ = len := by
    rw [Line.size, Bytes.size_take, Nat.min_eq_left hlen]
  rw [matchAt_eq_ok g mode hlen hstart, tokenAt_eq_ok g mode (by rwa [hsize])]

/-- Buffers with the same view have the same answers. -/
theorem matchAt_eq_of_take_eq {start : Nat} {other : Bytes} (hlen : len ≤ buffer.size)
    (hstart : start ≤ len) (hview : other.take len = buffer.take len) :
    g.matchAt mode other len start = g.matchAt mode buffer len start := by
  have hother : len ≤ other.size := by
    have hsize := congrArg Array.size hview
    rw [Bytes.size_take, Bytes.size_take] at hsize
    omega
  rw [matchAt_eq_tokenAt_take hother hstart, matchAt_eq_tokenAt_take hlen hstart, hview]

end Grammar

end ShellTokens
