import ShellTokens.Proofs.Pattern.SimpleForm
import ShellTokens.Proofs.Shell.Progress

/-!
# Runs are taken whole

Plain text, white space and comments are runs of bytes from one set, and in each table their
terminal has no other pattern. Whatever else matches there, a token with such a terminal covers the
run to its end, so that the byte behind it begins no run of the same kind: two of them never stand
next to each other.
-/

namespace ShellTokens

namespace Table

variable {t : Table} {set : ByteSet} {terminal : Terminal} {input : Bytes} {i : Nat}

/-- The set of the first run with the terminal. -/
def runSet (t : Table) (terminal : Terminal) : ByteSet :=
  let set? := t.rules.findSome? fun r =>
    match r.pattern with
    | .run run => if r.terminal = terminal then some run.set else none
    | _ => none
  set?.getD ∅

/-- A match whose terminal has no pattern but a run covers the run, which is not empty. -/
theorem bestMatch_of_runs (hrules : ∀ r ∈ t.rules, r.terminal = terminal →
      r.pattern = Pattern.plus set) (hne : terminal ≠ t.fallback)
    (h : (t.bestMatch input i).terminal = terminal) :
    i < (t.bestMatch input i).stop ∧ (t.bestMatch input i).stop =
      i + ((input.toList.drop i).takeWhile set.contains).length := by
  have hbest := t.isBest_bestMatch input i
  have hlt := hbest.lt_stop_of_ne (h ▸ hne)
  obtain ⟨r, hr, hterminal, hstop⟩ := hbest.exists_rule hlt
  have hends : ∀ e, e ∈ r.pattern.ends input i ↔
      i + 1 ≤ e ∧ e ≤ i + input.countWhile set.contains i := by
    intro e
    rw [hrules r hr (hterminal.symm.trans h), Pattern.plus, Pattern.runOf, Pattern.mem_ends_run,
      Pattern.language, Bytes.spells_run]
  have hrun := (hends _).1 hstop
  have hlast := hbest.le_of_mem_ends hr ((hends _).2 ⟨by omega, Nat.le_refl _⟩)
  rw [← Bytes.countWhile_eq]
  exact ⟨hlt, by omega⟩

/-- At the end of such a match there is no other one. -/
theorem terminal_bestMatch_ne_of_runs (hrules : ∀ r ∈ t.rules, r.terminal = terminal →
      r.pattern = Pattern.plus set) (hne : terminal ≠ t.fallback)
    (h : (t.bestMatch input i).terminal = terminal) :
    (t.bestMatch input (t.bestMatch input i).stop).terminal ≠ terminal := by
  intro hnext
  obtain ⟨_, hstop⟩ := bestMatch_of_runs hrules hne h
  obtain ⟨hlt, hstop'⟩ := bestMatch_of_runs hrules hne hnext
  cases hbyte : input[(t.bestMatch input i).stop]? with
  | none => simp [hstop', Bytes.drop_toList_of_getElem?_eq_none hbyte] at hlt
  | some b =>
    have hbehind : set.contains b = false := by
      rw [hstop] at hbyte
      exact Bytes.not_of_getElem?_behind_run hbyte
    simp [hstop', Bytes.drop_toList_of_getElem? hbyte, hbehind] at hlt

end Table

namespace Shell

variable {mode : Mode} {terminal : Terminal} {c : Cursor}

/-- The terminals of plain text, of white space and of comments. -/
def runTerminals : List Terminal :=
  [.litChars, .wsSpace, .ignoredSpace, .ignoredComment]

theorem pattern_of_runTerminal : ∀ mode ∈ Mode.all, ∀ terminal ∈ runTerminals,
    ∀ r ∈ (tableOf mode).rules, r.terminal = terminal →
      r.pattern = Pattern.plus ((tableOf mode).runSet terminal) := by
  decide +kernel

/-- Two reads in a row do not give the same kind of run. -/
theorem terminal_read_ne (mode : Mode) (c : Cursor) :
    ¬ ((c.read grammar mode).1.terminal ∈ runTerminals ∧
      ((c.read grammar mode).2.read grammar mode).1.terminal =
        (c.read grammar mode).1.terminal) := by
  rintro ⟨hmem, hnext⟩
  have hne : (c.read grammar mode).1.terminal ≠ (tableOf mode).fallback := by
    rw [fallback_tableOf]
    intro heq
    rw [heq] at hmem
    exact absurd hmem (by decide)
  exact Table.terminal_bestMatch_ne_of_runs (pattern_of_runTerminal mode mode.mem_all _ hmem) hne
    rfl hnext

/-- In no mode are two neighbouring tokens plain text, white space or comments of the same kind,
wherever reading begins. -/
theorem tokens_maximal (mode : Mode) (c : Cursor) :
    (c.tokens grammar mode).1.IsChain fun t u =>
      ¬ (t.terminal ∈ runTerminals ∧ u.terminal = t.terminal) := by
  obtain hpos | hpos := Nat.lt_or_ge c.line.size c.pos
  · have hroom : c.line.size - c.pos = 0 := by omega
    rw [Cursor.tokens, hroom]
    exact .nil
  · exact (Cursor.lexes_tokens grammar mode hpos).1.isChain (terminal_read_ne mode)

end Shell

end ShellTokens
