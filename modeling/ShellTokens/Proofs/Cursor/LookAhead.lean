import ShellTokens.Proofs.Cursor.Lexes

/-!
# Looking ahead

A look ahead tells the terminal that a reader would get who passes over white space first. The
reader goes on as long as a token is white space of some width, so a fallback stops it even if it is
white space by name, and at the end of the line the answer does not depend on the fallback at all.
-/

namespace ShellTokens

/-- A token of white space that takes some byte. -/
def Token.IsBlank (t : Token) : Prop :=
  t.terminal = .wsSpace ∧ t.isFallback = false

instance (t : Token) : Decidable t.IsBlank :=
  inferInstanceAs (Decidable (_ ∧ _))

namespace Cursor

variable {g : Grammar} {mode : Mode} {c d : Cursor} {i : Nat} {u : Terminal}

/-- What a reader finds who passes over no more white space. -/
def terminalAhead (g : Grammar) (mode : Mode) (d : Cursor) : Terminal :=
  if d.atEnd then .unknownTok else (d.read g mode).1.terminal

theorem not_isBlank_read_of_atEnd (h : c.atEnd = true) : ¬ (c.read g mode).1.IsBlank := by
  rintro ⟨_, hwidth⟩
  have hpos : c.pos = c.line.size := by simpa [atEnd] using h
  rw [isFallback_read_of_size_le hpos] at hwidth
  contradiction

theorem lookAhead_go_of_isBlank {room : Nat} (h : (read g mode ⟨c.line, i⟩).1.IsBlank) :
    lookAhead.go g mode c (room + 1) i =
      lookAhead.go g mode c room (read g mode ⟨c.line, i⟩).2.pos := by
  have hsize : i ≠ c.line.size := by
    intro heq
    exact not_isBlank_read_of_atEnd (c := ⟨c.line, i⟩) (by simp [atEnd, heq]) h
  obtain ⟨hterminal, hwidth⟩ := h
  have hstop : i < (read g mode ⟨c.line, i⟩).2.pos := isFallback_read_eq_false_iff.1 hwidth
  rw [lookAhead.go, if_neg hsize]
  exact if_pos ⟨hterminal, Nat.ne_of_gt hstop⟩

theorem lookAhead_go_of_not_isBlank {room : Nat} (hroom : c.line.size ≤ i + room)
    (h : ¬ (read g mode ⟨c.line, i⟩).1.IsBlank) (hi : i ≤ c.line.size) :
    lookAhead.go g mode c room i = terminalAhead g mode ⟨c.line, i⟩ := by
  cases room with
  | zero =>
    have hend : i = c.line.size := Nat.le_antisymm hi hroom
    simp [lookAhead.go, terminalAhead, atEnd, hend]
  | succ room =>
    by_cases hend : i = c.line.size
    · simp [lookAhead.go, terminalAhead, atEnd, hend]
    · have hle : i ≤ ((g.table mode).bestMatch c.line.bytes i).stop :=
        ((g.table mode).isBest_bestMatch c.line.bytes i).le_stop
      have hstays : ¬ (((g.table mode).bestMatch c.line.bytes i).terminal = .wsSpace ∧
          ((g.table mode).bestMatch c.line.bytes i).stop ≠ i) := by
        rintro ⟨hterminal, hstop⟩
        have hlt := Nat.lt_of_le_of_ne hle (Ne.symm hstop)
        exact h ⟨hterminal, isFallback_read_eq_false_iff.2 hlt⟩
      simp [lookAhead.go, terminalAhead, atEnd, hend, hstays, read]

/-- There is room for all white space, since each token of it takes a byte. -/
theorem exists_blanks_lookAhead_go {room : Nat} (hi : i ≤ c.line.size)
    (hroom : c.line.size ≤ i + room) :
    ∃ blanks d, Lexes g mode ⟨c.line, i⟩ blanks d ∧ (∀ t ∈ blanks, t.IsBlank) ∧
      ¬ (d.read g mode).1.IsBlank ∧ lookAhead.go g mode c room i = terminalAhead g mode d := by
  induction room generalizing i with
  | zero =>
    have hend : ¬ (read g mode ⟨c.line, i⟩).1.IsBlank :=
      not_isBlank_read_of_atEnd (by simpa [atEnd] using Nat.le_antisymm hi hroom)
    exact ⟨[], _, Lexes.done _, by simp, hend, lookAhead_go_of_not_isBlank hroom hend hi⟩
  | succ room ih =>
    by_cases hblank : (read g mode ⟨c.line, i⟩).1.IsBlank
    · have hlt : i < (read g mode ⟨c.line, i⟩).2.pos := isFallback_read_eq_false_iff.1 hblank.2
      have hsize : (read g mode ⟨c.line, i⟩).2.pos ≤ c.line.size :=
        pos_read_le_size (c := ⟨c.line, i⟩) g mode hi
      obtain ⟨blanks, d, hlexes, hblanks, hstop, hgo⟩ := ih hsize (by omega)
      refine ⟨_ :: blanks, d, Lexes.read rfl hblank.2 hlexes, ?_, hstop, ?_⟩
      · exact List.forall_mem_cons.2 ⟨hblank, hblanks⟩
      · rw [lookAhead_go_of_isBlank hblank, hgo]
    · exact ⟨[], _, Lexes.done _, by simp, hblank, lookAhead_go_of_not_isBlank hroom hblank hi⟩

variable (g mode) in
theorem exists_blanks_lookAhead (hpos : c.pos ≤ c.line.size) :
    ∃ blanks d, c.Lexes g mode blanks d ∧ (∀ t ∈ blanks, t.IsBlank) ∧
      ¬ (d.read g mode).1.IsBlank ∧ c.lookAhead g mode = terminalAhead g mode d :=
  exists_blanks_lookAhead_go hpos (by omega)

/-- A look ahead gives what reading over all white space does. -/
theorem lookAhead_eq_iff (hpos : c.pos ≤ c.line.size) :
    c.lookAhead g mode = u ↔
      ∃ blanks d, c.Lexes g mode blanks d ∧ (∀ t ∈ blanks, t.IsBlank) ∧
        ¬ (d.read g mode).1.IsBlank ∧ u = terminalAhead g mode d := by
  obtain ⟨blanks, d, hlexes, hblanks, hstop, hlook⟩ := exists_blanks_lookAhead g mode hpos
  constructor
  · rintro rfl
    exact ⟨blanks, d, hlexes, hblanks, hstop, hlook⟩
  · rintro ⟨blanks', d', hlexes', hblanks', hstop', rfl⟩
    obtain ⟨-, rfl⟩ := hlexes.unique_of_forall hlexes' hblanks hblanks' hstop hstop'
    exact hlook

end Cursor

end ShellTokens
