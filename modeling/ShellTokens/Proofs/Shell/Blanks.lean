import ShellTokens.Proofs.Cursor.LookAhead
import ShellTokens.Proofs.Shell.Progress

/-!
# White space before a token of a command

In a command, white space is read where a blank stands, and it covers blanks only. So a look ahead
passes over all blanks and no other bytes: it tells the token at the first byte that is none, and
that there is nothing only if no such byte is left.
-/

namespace ShellTokens

/-- Each byte of the line from position `i` up to position `j` is a blank. -/
def Line.BlankBetween (line : Line) (i j : Nat) : Prop :=
  ∀ k b, i ≤ k → k < j → line.bytes[k]? = some b → ByteSet.blank.contains b = true

namespace Shell

variable {c d : Cursor} {i : Nat} {b : UInt8} {blanks : List Token}

/-! ### Facts about the table -/

theorem wsSpace_after_blank : ∀ b ∈ ByteSet.blank.toList, command.takes b = true ∧
    (command.after b).fallback = .wsSpace ∧
      ∀ r ∈ (command.after b).rules, r.terminal = .wsSpace := by
  decide +kernel

theorem letters_of_wsSpace :
    ∀ r ∈ command.rules, r.terminal = .wsSpace → r.pattern.letters = ByteSet.blank := by
  decide +kernel

theorem terminal_ne_unknownTok : ∀ r ∈ command.rules, r.terminal ≠ .unknownTok := by
  decide +kernel

/-! ### One read -/

/-- Where a blank stands, white space is read. -/
theorem isBlank_read (hb : c.line.bytes[c.pos]? = some b)
    (hblank : ByteSet.blank.contains b = true) : (c.read grammar .command).1.IsBlank := by
  obtain ⟨htakes, hfallback, hrules⟩ := wsSpace_after_blank b (ByteSet.mem_toList.2 hblank)
  have hbest := (command.after b).isBest_bestMatch c.line.bytes (c.pos + 1)
  have hmatch : (grammar.table .command).bestMatch c.line.bytes c.pos =
      (command.after b).bestMatch c.line.bytes (c.pos + 1) :=
    Table.bestMatch_eq_after (consistent_tableOf .command) hb htakes
  rw [Token.IsBlank, Cursor.isFallback_read_eq_false_iff]
  simp only [Cursor.read, hmatch]
  exact ⟨hbest.terminal_of_forall (· = .wsSpace) hfallback hrules, hbest.le_stop⟩

/-- White space covers blanks only. -/
theorem blankBetween_of_isBlank (h : (c.read grammar .command).1.IsBlank) :
    c.line.BlankBetween c.pos (c.read grammar .command).2.pos := by
  intro k b hk hkstop hb
  obtain ⟨hterminal, hwidth⟩ := h
  have hbest := command.isBest_bestMatch c.line.bytes c.pos
  obtain ⟨r, hr, hr', he⟩ := hbest.exists_rule (Cursor.isFallback_read_eq_false_iff.1 hwidth)
  obtain ⟨w, hw, a, ha, hbyte⟩ := (Pattern.spells_of_mem_ends he).exists_mem hk hkstop
  obtain rfl : a = b := Option.some.inj (hbyte.symm.trans hb)
  rw [← letters_of_wsSpace r hr (hr'.symm.trans hterminal)]
  exact Pattern.contains_letters_of_mem hw ha

theorem lookAhead_of_not_atEnd (h : d.atEnd = false) :
    d.terminalAhead grammar .command ≠ .unknownTok := by
  have hbest := command.isBest_bestMatch d.line.bytes d.pos
  have hterminal : (d.read grammar .command).1.terminal ≠ .unknownTok :=
    hbest.terminal_of_forall (· ≠ .unknownTok) (by decide) terminal_ne_unknownTok
  simpa [Cursor.terminalAhead, h] using hterminal

/-! ### All white space -/

theorem blankBetween_of_lexes (h : c.Lexes grammar .command blanks d)
    (hblanks : ∀ t ∈ blanks, t.IsBlank) : c.line.BlankBetween c.pos d.pos := by
  induction h with
  | done c =>
    intro k b hk hk'
    omega
  | @read c c' d t tokens hread hwidth _ ih =>
    obtain ⟨ht, hrest⟩ := List.forall_mem_cons.1 hblanks
    obtain ⟨rfl, rfl⟩ := Prod.mk.inj hread
    intro k b hk hkstop hb
    by_cases hfirst : k < (c.read grammar .command).2.pos
    · exact blankBetween_of_isBlank ht k b hk hfirst hb
    · exact ih hrest k b (Nat.not_lt.1 hfirst) hkstop hb

/-- A look ahead stops at the first byte that is no blank. -/
theorem exists_stop_lookAhead (hpos : c.pos ≤ c.line.size) :
    ∃ stop, c.pos ≤ stop ∧ stop ≤ c.line.size ∧ c.line.BlankBetween c.pos stop ∧
      (stop = c.line.size ∨
        ∃ b, c.line.bytes[stop]? = some b ∧ ByteSet.blank.contains b = false) ∧
      c.lookAhead grammar .command = Cursor.terminalAhead grammar .command ⟨c.line, stop⟩ := by
  obtain ⟨blanks, d, hlexes, hblanks, hstop, hlook⟩ :=
    Cursor.exists_blanks_lookAhead grammar .command hpos
  have hsize := hlexes.pos_le_size hpos
  have hbetween := blankBetween_of_lexes hlexes hblanks
  obtain ⟨line, stop⟩ := d
  obtain rfl : line = c.line := hlexes.line_eq
  refine ⟨stop, hlexes.tiles.le, hsize, hbetween, ?_, hlook⟩
  obtain heq | hlt := Nat.eq_or_lt_of_le hsize
  · exact Or.inl heq
  · have hb : c.line.bytes[stop]? = some c.line.bytes[stop] := Array.getElem?_eq_getElem hlt
    refine Or.inr ⟨_, hb, ?_⟩
    by_contra hblank
    exact hstop (isBlank_read (c := ⟨c.line, stop⟩) hb (by simpa using hblank))

end Shell

end ShellTokens
