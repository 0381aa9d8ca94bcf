import ShellTokens.Proofs.Shell.Progress
import ShellTokens.Proofs.Table.States

/-!
# Keywords of a command

The letters of a keyword are also a word and the beginning of longer words, of assignments and of
array elements. The keyword is the token exactly if none of these goes on behind it: it wins the tie
with the word of the same length and loses to everything longer. A plus sign is the case that needs
a second look, since it goes on with an assignment only together with an equals sign.
-/

namespace ShellTokens

/-- No word, assignment or array element goes on at the position. -/
def Line.EndsWordAt (line : Line) (i : Nat) : Prop :=
  ∀ b, line.bytes[i]? = some b → Shell.wordChar.contains b = false ∧ b ≠ 0x3d ∧ b ≠ 0x5b ∧
    ¬ (b = 0x2b ∧ line.bytes[i + 1]? = some 0x3d)

namespace Shell

open Pattern

def letter : ByteSet :=
  ByteSet.range 0x61 0x7a ∪ ByteSet.range 0x41 0x5a

/-- The keywords that are made of letters: reserved words, builtins that assign and words of control
flow. -/
def wordKeywords : List (List UInt8 × Terminal) :=
  keywords.filterMap fun r =>
    match r.pattern with
    | literal word => if word.all letter.contains then some (word, r.terminal) else none
    | _ => none

example : wordKeywords.length = 24 := by decide

variable {line : Line} {word : List UInt8} {terminal : Terminal} {start i : Nat} {b : UInt8}

/-! ### The state behind the letters -/

/-- What can go on behind the letters of a word: the rest of a name before an assignment or a
bracket, and the rest of the word. -/
def wordTable : Table :=
  table
    [rule (concat [star .nameRest, literal [0x3d]]) .litVarLike,
     rule (concat [star .nameRest, literal [0x2b, 0x3d]]) .litVarLike,
     rule (concat [star .nameRest, literal [0x5b]]) .litArrayLhsOpen,
     rule (star wordChar) .litChars]

/-- What can go on behind a plus sign. -/
def plusTable (terminal : Terminal) : Table where
  rules := [rule (literal [0x3d]) .litVarLike]
  fallback := terminal

/-- Behind a keyword there may be rules for longer keywords too, but none that begins with another
byte. -/
theorem along_keyword : ∀ pair ∈ wordKeywords,
    command.takesAll pair.1 = true ∧ (command.along pair.1).fallback = pair.2 ∧
      wordTable.rules ⊆ (command.along pair.1).rules ∧
      (command.along pair.1).firstBytes = wordChar ∪ ByteSet.ofList [0x3d, 0x5b, 0x2b] ∧
      (command.along pair.1).takes 0x2b = false ∧
      (command.along pair.1).next 0x2b = plusTable pair.2 := by
  decide

theorem takes_wordTable : ∀ b ∈ (wordChar ∪ ByteSet.ofList [0x3d, 0x5b]).toList,
    wordTable.takes b = true := by
  decide +kernel

theorem firstBytes_plusTable : (plusTable terminal).firstBytes = ByteSet.ofList [0x3d] :=
  rfl

theorem takes_plusTable : (plusTable terminal).takes 0x3d = true :=
  rfl

/-- A keyword has one rule. -/
theorem pattern_of_keyword : ∀ pair ∈ wordKeywords, pair.2 ≠ .eolTok ∧
    ∀ r ∈ command.rules, r.terminal = pair.2 → r.pattern = literal pair.1 := by
  decide

theorem consistent_along_command (word : List UInt8) : (command.along word).Consistent :=
  consistent_command.along word

/-! ### The bytes behind the letters -/

theorem bestMatch_along_of_endsWordAt (hword : (word, terminal) ∈ wordKeywords)
    (hend : line.EndsWordAt i) :
    (command.along word).bestMatch line.bytes i = ⟨terminal, i⟩ := by
  obtain ⟨_, hfallback, _, hfirst, hplus, hnext⟩ := along_keyword _ hword
  dsimp only at hfallback
  rw [← hfallback]
  by_cases hbyte : line.bytes[i]? = some 0x2b
  · have hequals : line.bytes[i + 1]? ≠ some 0x3d := fun h => (hend _ hbyte).2.2.2 ⟨rfl, h⟩
    have hstop : (plusTable terminal).bestMatch line.bytes (i + 1) = ⟨terminal, i + 1⟩ :=
      Table.bestMatch_of_firstBytes firstBytes_plusTable (by simpa using hequals)
    apply Table.bestMatch_of_not_takes (consistent_along_command word) hbyte hplus
    rw [hnext, hstop]
  · apply Table.bestMatch_of_not_firstBytes
    intro b hb
    obtain ⟨hchar, hequals, hbracket, _⟩ := hend b hb
    have hne : b ≠ 0x2b := fun h => hbyte (h ▸ hb)
    rw [hfirst, ByteSet.contains_cup, hchar, ByteSet.contains_ofList]
    simp [hequals, hbracket, hne]

theorem endsWordAt_of_stop_le (hword : (word, terminal) ∈ wordKeywords)
    (hstop : ((command.along word).bestMatch line.bytes i).stop ≤ i) : line.EndsWordAt i := by
  obtain ⟨_, _, hrules, _, _, hnext⟩ := along_keyword _ hword
  intro b hb
  have hchar : (wordChar ∪ ByteSet.ofList [0x3d, 0x5b]).contains b = false := by
    rw [← Bool.not_eq_true]
    intro hmem
    -- the byte alone would make the match longer
    have htakes := takes_wordTable b (ByteSet.mem_toList.2 hmem)
    have hlt := Table.lt_stop_of_takes (consistent_along_command word) hb
      (Table.takes_of_subset hrules htakes)
    omega
  have hequals : ¬ (b = 0x2b ∧ line.bytes[i + 1]? = some 0x3d) := by
    rintro ⟨rfl, hb'⟩
    -- the plus sign does so with the equals sign behind it only
    have hlt := Table.lt_stop_of_takes ((consistent_along_command word).next 0x2b) hb'
      (hnext ▸ takes_plusTable)
    rw [Table.bestMatch_eq_next_of_lt (consistent_along_command word) hb hlt] at hstop
    omega
  simpa [hequals] using hchar

/-- The terminal of a keyword is found for its letters only. -/
theorem stop_of_keyword (hword : (word, terminal) ∈ wordKeywords)
    (hterminal : (command.bestMatch line.bytes start).terminal = terminal) :
    word <+: line.bytes.toList.drop start ∧
      (command.bestMatch line.bytes start).stop = start + word.length := by
  obtain ⟨hne, hpattern⟩ := pattern_of_keyword _ hword
  have hbest := command.isBest_bestMatch line.bytes start
  obtain ⟨r, hr, hr', he⟩ := hbest.exists_rule (hbest.lt_stop_of_ne (hterminal ▸ hne))
  rw [hpattern r hr (hr'.symm.trans hterminal)] at he
  exact Bytes.spells_word.1 (Pattern.spells_of_mem_ends he)

/-- In a command a keyword is found exactly where its letters stand and no word goes on behind them,
and it covers these letters. -/
theorem tokenAt_keyword_iff (hword : (word, terminal) ∈ wordKeywords) (hstart : start ≤ line.size) :
    ∃ found, grammar.tokenAt .command line start = .ok found ∧
      (found.terminal = terminal ↔
        word <+: line.bytes.toList.drop start ∧ line.EndsWordAt (start + word.length)) ∧
      (found.terminal = terminal → found.stop = start + word.length) := by
  refine ⟨command.bestMatch line.bytes start, Grammar.tokenAt_eq_ok grammar .command hstart, ?_,
    fun h => (stop_of_keyword hword h).2⟩
  have hletters : word <+: line.bytes.toList.drop start →
      command.bestMatch line.bytes start =
        (command.along word).bestMatch line.bytes (start + word.length) :=
    Table.bestMatch_eq_along consistent_command (along_keyword _ hword).1
  constructor
  · intro hterminal
    obtain ⟨hspells, hstop⟩ := stop_of_keyword hword hterminal
    rw [hletters hspells] at hstop
    exact ⟨hspells, endsWordAt_of_stop_le hword (Nat.le_of_eq hstop)⟩
  · rintro ⟨hspells, hend⟩
    rw [hletters hspells, bestMatch_along_of_endsWordAt hword hend]

/-- A plus sign with nothing behind it does not go on with an assignment. -/
theorem tokenAt_keyword_before_plus :
    ([0x64, 0x6f], Terminal.kwDo) ∈ wordKeywords ∧
      1 ≤ (⟨#[0x3b, 0x64, 0x6f, 0x2b]⟩ : Line).size ∧
      grammar.tokenAt .command ⟨#[0x3b, 0x64, 0x6f, 0x2b]⟩ 1 = .ok ⟨.kwDo, 3⟩ := by
  have hword : ([0x64, 0x6f], Terminal.kwDo) ∈ wordKeywords := by decide
  have hstart : 1 ≤ (⟨#[0x3b, 0x64, 0x6f, 0x2b]⟩ : Line).size := by decide
  obtain ⟨found, htoken, hiff, hstop⟩ := tokenAt_keyword_iff hword hstart
  have hend : (⟨#[0x3b, 0x64, 0x6f, 0x2b]⟩ : Line).EndsWordAt 3 := by
    intro b hb
    obtain rfl : 0x2b = b := by simpa using hb
    decide
  have hterminal := hiff.2 ⟨by decide, hend⟩
  have hfound : found = ⟨.kwDo, 3⟩ := congrArg₂ Match.mk hterminal (hstop hterminal)
  exact ⟨hword, hstart, htoken.trans (congrArg _ hfound)⟩

end Shell

end ShellTokens
