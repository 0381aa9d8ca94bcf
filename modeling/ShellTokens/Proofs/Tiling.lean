import ShellTokens.Line

/-!
# Tilings of a line

Spans tile a stretch of a line when each of them has some width and begins where the one before it
ends. The texts of tokens whose spans tile a stretch make up the bytes of that stretch.
-/

namespace ShellTokens

namespace Span

/-- The spans lead from `lo` to `hi` without gap or overlap, and none of them is empty. -/
def Tiles : List Span → Nat → Nat → Prop
  | [], lo, hi => lo = hi
  | s :: spans, lo, hi => s.start = lo ∧ lo < s.stop ∧ Tiles spans s.stop hi

variable {spans rest : List Span} {lo hi : Nat}

theorem Tiles.le (h : Tiles spans lo hi) : lo ≤ hi := by
  induction spans generalizing lo with
  | nil => exact Nat.le_of_eq h
  | cons s spans ih =>
    obtain ⟨_, hlt, htail⟩ := h
    exact Nat.le_trans (Nat.le_of_lt hlt) (ih htail)

theorem tiles_append : Tiles (spans ++ rest) lo hi ↔ ∃ m, Tiles spans lo m ∧ Tiles rest m hi := by
  induction spans generalizing lo with
  | nil => simp [Tiles]
  | cons s spans ih =>
    simp only [List.cons_append, Tiles, ih]
    constructor
    · rintro ⟨hstart, hlt, m, hspans, hrest⟩
      exact ⟨m, ⟨hstart, hlt, hspans⟩, hrest⟩
    · rintro ⟨m, ⟨hstart, hlt, hspans⟩, hrest⟩
      exact ⟨hstart, hlt, m, hspans, hrest⟩

theorem Tiles.concat (h : Tiles spans lo hi) {s : Span} (hstart : s.start = hi)
    (hlt : hi < s.stop) : Tiles (spans ++ [s]) lo s.stop :=
  tiles_append.2 ⟨hi, h, hstart, hlt, rfl⟩

/-- There are no more spans than positions. -/
theorem Tiles.length_le (h : Tiles spans lo hi) : lo + spans.length ≤ hi := by
  induction spans generalizing lo with
  | nil => exact Nat.le_of_eq h
  | cons s spans ih =>
    obtain ⟨_, hlt, htail⟩ := h
    have := ih htail
    simp only [List.length_cons]
    omega

theorem Tiles.stop_eq (h : Tiles spans lo hi) : hi = (spans.getLast?.map Span.stop).getD lo := by
  induction spans generalizing lo with
  | nil => exact Eq.symm h
  | cons s spans ih =>
    obtain ⟨_, _, htail⟩ := h
    have hlast := ih htail
    cases spans with
    | nil => simpa using hlast
    | cons next spans =>
      rw [hlast, List.getLast?_cons_cons, List.getLast?_eq_some_getLast (List.cons_ne_nil _ _)]
      rfl

/-- Each position is covered by a span. -/
theorem Tiles.exists_mem (h : Tiles spans lo hi) {p : Nat} (hlo : lo ≤ p) (hhi : p < hi) :
    ∃ s ∈ spans, s.start ≤ p ∧ p < s.stop := by
  induction spans generalizing lo with
  | nil => exact absurd (h ▸ hlo) (Nat.not_le.2 hhi)
  | cons s spans ih =>
    obtain ⟨hstart, _, htail⟩ := h
    by_cases hp : p < s.stop
    · exact ⟨s, List.mem_cons_self, by omega, hp⟩
    · obtain ⟨r, hr, hcover⟩ := ih htail (Nat.not_lt.1 hp)
      exact ⟨r, List.mem_cons_of_mem s hr, hcover⟩

theorem Tiles.le_start (h : Tiles spans lo hi) {s : Span} (hs : s ∈ spans) : lo ≤ s.start := by
  induction spans generalizing lo with
  | nil => exact absurd hs List.not_mem_nil
  | cons r spans ih =>
    obtain ⟨hstart, hlt, htail⟩ := h
    rcases List.mem_cons.1 hs with rfl | hs
    · exact Nat.le_of_eq hstart.symm
    · exact Nat.le_trans (Nat.le_of_lt hlt) (ih htail hs)

theorem Tiles.start_lt_stop (h : Tiles spans lo hi) {s : Span} (hs : s ∈ spans) :
    s.start < s.stop := by
  induction spans generalizing lo with
  | nil => exact absurd hs List.not_mem_nil
  | cons r spans ih =>
    obtain ⟨hstart, hlt, htail⟩ := h
    rcases List.mem_cons.1 hs with rfl | hs
    · exact hstart.symm ▸ hlt
    · exact ih htail hs

/-- No position is covered twice. -/
theorem Tiles.eq_of_mem (h : Tiles spans lo hi) {r s : Span} (hr : r ∈ spans) (hs : s ∈ spans)
    {p : Nat} (hrp : r.start ≤ p ∧ p < r.stop) (hsp : s.start ≤ p ∧ p < s.stop) : r = s := by
  induction spans generalizing lo with
  | nil => exact absurd hr List.not_mem_nil
  | cons q spans ih =>
    obtain ⟨_, _, htail⟩ := h
    rcases List.mem_cons.1 hr with hrq | hr'
    · rcases List.mem_cons.1 hs with hsq | hs'
      · rw [hrq, hsq]
      · have := htail.le_start hs'
        subst hrq
        omega
    · rcases List.mem_cons.1 hs with hsq | hs'
      · have := htail.le_start hr'
        subst hsq
        omega
      · exact ih htail hr' hs'

end Span

variable {line : Line} {tokens : List Token} {lo hi : Nat}

theorem Token.toList_text {t : Token} (hle : t.span.start ≤ t.span.stop)
    (hsize : t.span.stop ≤ line.size) :
    (t.text line).toList = (line.bytes.toList.take t.span.stop).drop t.span.start := by
  have hslice : line.slice? t.span = some (line.bytes.extract t.span.start t.span.stop) :=
    if_pos ⟨hle, hsize⟩
  rw [text, hslice, Option.getD_some, Array.toList_extract, List.extract_eq_take_drop,
    List.drop_take]

/-- The text of a token over some bytes of the line. -/
theorem Token.toList_text_of_prefix {u : Terminal} {i : Nat} {w : List UInt8}
    (hw : w <+: line.bytes.toList.drop i) (hi : i ≤ line.size) :
    ((⟨u, ⟨i, i + w.length⟩⟩ : Token).text line).toList = w := by
  have hstop : i + w.length ≤ line.size := by
    have hlength : w.length ≤ line.size - i := by simpa [Line.size] using hw.length_le
    omega
  rw [Token.toList_text (Nat.le_add_right i w.length) hstop, List.drop_take,
    Nat.add_sub_cancel_left]
  exact (List.prefix_iff_eq_take.1 hw).symm

/-- The texts of a tiling, one after the other, are the bytes that it covers. -/
theorem Span.Tiles.flatMap_text (h : Span.Tiles (tokens.map Token.span) lo hi)
    (hsize : hi ≤ line.size) :
    tokens.flatMap (fun t => (t.text line).toList) = (line.bytes.toList.take hi).drop lo := by
  induction tokens generalizing lo with
  | nil =>
    obtain rfl : lo = hi := h
    rw [List.flatMap_nil, List.drop_take, Nat.sub_self, List.take_zero]
  | cons t tokens ih =>
    obtain ⟨rfl, hlt, htail⟩ := h
    have hle := htail.le
    rw [List.flatMap_cons, ih htail, Token.toList_text (Nat.le_of_lt hlt) (Nat.le_trans hle hsize)]
    calc (line.bytes.toList.take t.span.stop).drop t.span.start ++
          (line.bytes.toList.take hi).drop t.span.stop
        = ((line.bytes.toList.take hi).drop t.span.start).take (t.span.stop - t.span.start) ++
          ((line.bytes.toList.take hi).drop t.span.start).drop (t.span.stop - t.span.start) := by
          rw [List.drop_drop, Nat.add_sub_cancel' (Nat.le_of_lt hlt), ← List.drop_take,
            List.take_take, Nat.min_eq_left hle]
      _ = (line.bytes.toList.take hi).drop t.span.start := List.take_append_drop _ _

end ShellTokens
