import ShellTokens.Proofs.Cursor.Lexes

/-!
# The lines of a text

Splitting a text loses nothing, and no line is empty. A newline ends its line, and every line but
the last one ends in a newline. Reading line by line gives the tokens of the whole text if each line
is read to its end and no match gets past the end of a line that others follow.
-/

namespace ShellTokens

namespace Line

variable {content : Bytes} {line : Line} {lines : List Line} {l part : List UInt8} {b : UInt8}

/-! ### Splitting -/

theorem flatten_split_go (l : List UInt8) : (split.go l).flatten = l := by
  induction l with
  | nil => rfl
  | cons b l ih =>
    rw [split.go]
    split
    · rw [List.flatten_cons, ih, List.singleton_append]
    · cases hgo : split.go l with
      | nil =>
        rw [hgo] at ih
        rw [← ih]
        rfl
      | cons part parts =>
        rw [hgo, List.flatten_cons] at ih
        rw [← ih]
        rfl

theorem getLast?_of_mem_dropLast_split_go (h : part ∈ (split.go l).dropLast) :
    part.getLast? = some 0x0a := by
  induction l generalizing part with
  | nil => simp [split.go] at h
  | cons b l ih =>
    rw [split.go] at h
    split at h
    · next hb =>
      cases hgo : split.go l with
      | nil => simp [hgo] at h
      | cons first parts =>
        rw [hgo, List.dropLast_cons_of_ne_nil (List.cons_ne_nil _ _), ← hgo] at h
        rcases List.mem_cons.1 h with rfl | h
        · rw [hb]
          rfl
        · exact ih h
    · cases hgo : split.go l with
      | nil => simp [hgo] at h
      | cons first parts =>
        cases parts with
        | nil => simp [hgo] at h
        | cons second parts =>
          rw [hgo] at ih
          simp only [hgo, List.dropLast_cons_of_ne_nil (List.cons_ne_nil _ _)] at h ih
          rcases List.mem_cons.1 h with rfl | h
          · rw [List.getLast?_cons, ih List.mem_cons_self]
            rfl
          · exact ih (List.mem_cons_of_mem _ h)

/-- A part takes at least one byte, and a newline only as its last one. -/
theorem newline_only_last_of_mem_split_go (h : part ∈ split.go l) :
    part ≠ [] ∧ 0x0a ∉ part.dropLast := by
  induction l generalizing part with
  | nil => simp [split.go] at h
  | cons b l ih =>
    rw [split.go] at h
    split at h
    · rcases List.mem_cons.1 h with rfl | h
      · simp
      · exact ih h
    · next hb =>
      cases hgo : split.go l with
      | nil =>
        simp only [hgo, List.mem_singleton] at h
        simp [h]
      | cons first parts =>
        rw [hgo] at ih
        simp only [hgo] at h
        rcases List.mem_cons.1 h with rfl | h
        · obtain ⟨hne, hnewline⟩ := ih List.mem_cons_self
          rw [List.dropLast_cons_of_ne_nil hne]
          refine ⟨List.cons_ne_nil _ _, ?_⟩
          simp [hnewline, Ne.symm hb]
        · exact ih (List.mem_cons_of_mem _ h)

/-- The bytes of the lines one after the other. -/
def join : List Line → Bytes
  | [] => #[]
  | line :: lines => line.bytes ++ join lines

theorem toList_join (lines : List Line) :
    (join lines).toList = (lines.map fun line => line.bytes.toList).flatten := by
  induction lines with
  | nil => rfl
  | cons line lines ih => rw [join, Array.toList_append, ih, List.map_cons, List.flatten_cons]

theorem join_split (content : Bytes) : join (split content) = content := by
  rw [← Array.toList_inj, toList_join, split, List.map_map]
  simpa [Function.comp_def] using flatten_split_go content.toList

theorem mem_join_of_mem (hline : line ∈ lines) (hb : b ∈ line.bytes) : b ∈ join lines := by
  rw [← Array.mem_toList_iff, toList_join, List.mem_flatten]
  exact ⟨line.bytes.toList, List.mem_map.2 ⟨line, hline, rfl⟩, Array.mem_toList_iff.2 hb⟩

theorem back?_of_mem_dropLast_split (h : line ∈ (split content).dropLast) :
    line.bytes.back? = some 0x0a := by
  rw [split, ← List.map_dropLast] at h
  obtain ⟨part, hpart, rfl⟩ := List.mem_map.1 h
  rw [← Array.getLast?_toList]
  exact getLast?_of_mem_dropLast_split_go hpart

theorem newline_only_last_of_mem_split (h : line ∈ split content) :
    line.bytes ≠ #[] ∧ 0x0a ∉ line.bytes.toList.dropLast := by
  obtain ⟨part, hpart, rfl⟩ := List.mem_map.1 h
  obtain ⟨hne, hnewline⟩ := newline_only_last_of_mem_split_go hpart
  exact ⟨by simpa using hne, hnewline⟩

end Line

/-! ### Tokens of lines -/

variable {g : Grammar} {mode : Mode} {lines : List Line}

/-- No match from within the line gets past its end, whatever bytes follow it. -/
def Table.StopsWithin (t : Table) (line : Line) : Prop :=
  ∀ after, ∀ i < line.size, (t.bestMatch (line.bytes ++ after) i).stop ≤ line.size

/-- The tokens of each line, with their places in a text in which the first line begins at
`offset`. -/
def tokensOfLines (g : Grammar) (mode : Mode) : Nat → List Line → List Token
  | _, [] => []
  | offset, line :: lines =>
    ((Cursor.atStart line).tokens g mode).1.map (Token.shift offset) ++
      tokensOfLines g mode (offset + line.size) lines

theorem tokensOfLines_add (d offset : Nat) (lines : List Line) :
    tokensOfLines g mode (d + offset) lines =
      (tokensOfLines g mode offset lines).map (Token.shift d) := by
  induction lines generalizing offset with
  | nil => rfl
  | cons line lines ih =>
    rw [tokensOfLines, tokensOfLines, Nat.add_assoc, ih, List.map_append, List.map_map]
    simp [Function.comp_def, Token.shift_shift]

namespace Cursor

/-- The cursor behind the last byte. -/
def atStop (line : Line) : Cursor :=
  ⟨line, line.size⟩

theorem prepend_atStop (before input : Bytes) :
    (atStop ⟨input⟩).prepend before = atStop ⟨before ++ input⟩ := by
  simp [prepend, atStop, Line.size]

theorem lexes_join (hend : ∀ line ∈ lines, ((atStart line).tokens g mode).2 = atStop line)
    (hstop : ∀ line ∈ lines.dropLast, (g.table mode).StopsWithin line) :
    (atStart ⟨Line.join lines⟩).Lexes g mode (tokensOfLines g mode 0 lines)
      (atStop ⟨Line.join lines⟩) := by
  induction lines with
  | nil => exact Lexes.done _
  | cons line lines ih =>
    obtain ⟨hline, hend⟩ := List.forall_mem_cons.1 hend
    have hstop' : ∀ line ∈ lines.dropLast, (g.table mode).StopsWithin line := by
      intro next hnext
      have hne : lines ≠ [] := List.ne_nil_of_mem (List.mem_of_mem_dropLast hnext)
      exact hstop next (by simp [List.dropLast_cons_of_ne_nil hne, hnext])
    have hmatch : ∀ i < line.size,
        ((g.table mode).bestMatch (line.bytes ++ Line.join lines) i).stop ≤ line.size := by
      intro i hi
      cases lines with
      | nil =>
        rw [Line.join, Array.append_empty]
        exact ((g.table mode).isBest_bestMatch _ i).stop_le_size (Nat.le_of_lt hi)
      | cons next lines => exact hstop line (by simp) _ i hi
    have hstart : (atStart line).pos ≤ (atStart line).line.size := Nat.zero_le _
    have hfirst := (lexes_tokens g mode hstart).1
    rw [hline] at hfirst
    have hrest := (ih hend hstop').prepend line.bytes (Nat.zero_le _)
    rw [← tokensOfLines_add, prepend_atStop] at hrest
    rw [tokensOfLines, Token.map_shift_zero, Nat.zero_add]
    exact (hfirst.append (Line.join lines) hstart hmatch).trans hrest

end Cursor

end ShellTokens
