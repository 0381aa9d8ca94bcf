import ShellTokens.Proofs.Cursor.Lexes
import ShellTokens.Proofs.Pattern.Alphabet
import ShellTokens.Proofs.Table.NextByte
import ShellTokens.Proofs.Tiling
import ShellTokens.Shell.Grammar

/-!
# Reading a line of the shell

Every table of the shell takes each byte but NUL by a rule of its own and no rule takes a NUL byte.
So a reader gets a token of some width at every position before the first NUL byte and the end of
the line there, whatever modes it chooses on the way, and its tokens tile the bytes up to there. An
iteration in one mode ends there, too.
-/

namespace ShellTokens

/-! ### Where the text of a line ends -/

namespace Line

variable {line : Line} {i : Nat} {b : UInt8}

/-- The position of the first NUL byte, or the end of a line that has none. -/
def textEnd (line : Line) : Nat :=
  line.nulPositions.head?.getD line.size

theorem nulPositions_head? (line : Line) :
    line.nulPositions.head? = (List.range line.size).find? fun i => line.bytes[i]? == some 0 := by
  rw [nulPositions, Bytes.positionsOf, List.head?_filter]
  rfl

theorem textEnd_le_size (line : Line) : line.textEnd ≤ line.size := by
  rw [textEnd, nulPositions_head?]
  cases h : (List.range line.size).find? fun i => line.bytes[i]? == some 0 with
  | none => exact Nat.le_refl line.size
  | some k => exact Nat.le_of_lt (List.mem_range.1 (List.mem_of_find?_eq_some h))

theorem textEnd_eq_size (h : 0 ∉ line.bytes) : line.textEnd = line.size := by
  have hnone : line.nulPositions = [] := by
    rw [List.eq_nil_iff_forall_not_mem]
    intro i hi
    exact h (Array.mem_of_getElem? (Bytes.mem_positionsOf.1 hi))
  rw [textEnd, hnone]
  rfl

theorem exists_byte_of_lt_textEnd (h : i < line.textEnd) :
    ∃ b, line.bytes[i]? = some b ∧ b ≠ 0 := by
  have hsize : i < line.bytes.size := Nat.lt_of_lt_of_le h line.textEnd_le_size
  refine ⟨line.bytes[i], Array.getElem?_eq_getElem hsize, ?_⟩
  intro hzero
  have hnul : (line.bytes[i]? == some 0) = true := by
    rw [Array.getElem?_eq_getElem hsize, hzero]
    rfl
  rw [textEnd, nulPositions_head?] at h
  cases hfind : (List.range line.size).find? fun i => line.bytes[i]? == some 0 with
  | none => exact List.find?_eq_none.1 hfind i (List.mem_range.2 hsize) hnul
  | some k =>
    rw [hfind, Option.getD_some] at h
    have hbefore := (List.find?_range_eq_some.1 hfind).2.2 i h
    rw [hnul] at hbefore
    contradiction

theorem eq_nul_of_getElem?_textEnd (h : line.bytes[line.textEnd]? = some b) : b = 0 := by
  rw [textEnd, nulPositions_head?] at h
  cases hfind : (List.range line.size).find? fun i => line.bytes[i]? == some 0 with
  | none =>
    rw [hfind, Option.getD_none] at h
    exact absurd (Array.getElem?_eq_some_iff.1 h).1 (Nat.lt_irrefl _)
  | some k =>
    rw [hfind, Option.getD_some] at h
    have hnul := List.find?_some hfind
    rw [h] at hnul
    simpa using hnul

end Line

/-! ### Facts about the tables -/

namespace Shell

variable {mode : Mode} {r : Rule} {input : Bytes} {i j e : Nat} {b : UInt8}

/-- Bytes that some rule of the table takes by themselves. -/
def singles (t : Table) : ByteSet :=
  t.rules.foldr (fun r set => r.pattern.singles ∪ set) ∅

theorem exists_rule_of_contains_singles {rules : List Rule} {fallback : Terminal}
    (h : (singles ⟨rules, fallback⟩).contains b = true) :
    ∃ r ∈ rules, r.pattern.singles.contains b = true := by
  induction rules with
  | nil => simp [singles] at h
  | cons r rules ih =>
    rw [singles, List.foldr_cons, ByteSet.contains_cup, Bool.or_eq_true] at h
    rcases h with h | h
    · exact ⟨r, List.mem_cons_self, h⟩
    · obtain ⟨q, hq, hqb⟩ := ih h
      exact ⟨q, List.mem_cons_of_mem r hq, hqb⟩

/-- The tables take exactly the bytes other than NUL one by one. -/
theorem singles_tableOf (mode : Mode) : singles (tableOf mode) = ByteSet.notNul := by
  cases mode <;> decide +kernel

theorem letters_not_contains_nul (mode : Mode) :
    ∀ r ∈ (tableOf mode).rules, r.pattern.letters.contains 0 = false := by
  cases mode <;> decide +kernel

theorem index_terminal_ne (mode : Mode) :
    ∀ r ∈ (tableOf mode).rules, r.terminal.index ≠ Terminal.eolTok.index := by
  cases mode <;> decide +kernel

theorem fallback_tableOf (mode : Mode) : (tableOf mode).fallback = .eolTok := by
  cases mode <;> rfl

theorem consistent_tableOf (mode : Mode) : (tableOf mode).Consistent := by
  cases mode <;> decide +kernel

theorem consistent_command : command.Consistent :=
  consistent_tableOf .command

theorem terminal_ne_eolTok (hr : r ∈ (tableOf mode).rules) : r.terminal ≠ .eolTok :=
  fun h => index_terminal_ne mode r hr (congrArg Terminal.index h)

/-! ### One match -/

theorem exists_rule_of_byte (mode : Mode) (hb : input[i]? = some b) (hne : b ≠ 0) :
    ∃ r ∈ (tableOf mode).rules, i + 1 ∈ r.pattern.ends input i := by
  have hsingle : (singles (tableOf mode)).contains b = true := by
    rw [singles_tableOf, ByteSet.notNul, ByteSet.contains_noneOf]
    simpa using hne
  obtain ⟨r, hr, hrb⟩ := exists_rule_of_contains_singles hsingle
  refine ⟨r, hr, Pattern.mem_ends_of_spells ?_ ⟨[b], Pattern.singleton_mem_language hrb, ?_, rfl⟩⟩
  · exact Nat.le_of_lt (Array.getElem?_eq_some_iff.1 hb).1
  · rw [Bytes.drop_toList_of_getElem? hb]
    exact ⟨_, rfl⟩

/-- A match covers no NUL byte. -/
theorem getElem?_ne_nul_of_mem_ends (hr : r ∈ (tableOf mode).rules)
    (he : e ∈ r.pattern.ends input i) (hij : i ≤ j) (hje : j < e) : input[j]? ≠ some 0 := by
  intro hnul
  obtain ⟨w, hw, b, hb, hbyte⟩ := (Pattern.spells_of_mem_ends he).exists_mem hij hje
  obtain rfl : b = 0 := Option.some.inj (hbyte.symm.trans hnul)
  exact Pattern.not_mem_of_letters (letters_not_contains_nul mode r hr) hw hb

variable {line : Line}

theorem le_textEnd_of_mem_ends (hr : r ∈ (tableOf mode).rules)
    (he : e ∈ r.pattern.ends line.bytes i) (hi : i ≤ line.textEnd) : e ≤ line.textEnd := by
  by_contra hlt
  have hsize := (Pattern.spells_of_mem_ends he).le_size (Nat.le_trans hi line.textEnd_le_size)
  have hbyte : line.bytes[line.textEnd]? = some line.bytes[line.textEnd] :=
    Array.getElem?_eq_getElem (by omega)
  apply getElem?_ne_nul_of_mem_ends hr he hi (by omega)
  rw [hbyte, Line.eq_nul_of_getElem?_textEnd hbyte]

/-- Before the end of the text, every mode finds a token of some width. -/
theorem bestMatch_of_lt_textEnd (mode : Mode) (hi : i < line.textEnd) :
    i < ((tableOf mode).bestMatch line.bytes i).stop ∧
      ((tableOf mode).bestMatch line.bytes i).stop ≤ line.textEnd ∧
      ((tableOf mode).bestMatch line.bytes i).terminal ≠ .eolTok := by
  have hbest := (tableOf mode).isBest_bestMatch line.bytes i
  obtain ⟨b, hb, hne⟩ := Line.exists_byte_of_lt_textEnd hi
  obtain ⟨r, hr, hreach⟩ := exists_rule_of_byte mode hb hne
  have hwidth := hbest.le_of_mem_ends hr hreach
  obtain ⟨q, hq, hterminal, hstop⟩ := hbest.exists_rule hwidth
  refine ⟨hwidth, le_textEnd_of_mem_ends hq hstop (Nat.le_of_lt hi), ?_⟩
  rw [hterminal]
  exact terminal_ne_eolTok hq

theorem bestMatch_textEnd (mode : Mode) :
    (tableOf mode).bestMatch line.bytes line.textEnd = ⟨.eolTok, line.textEnd⟩ := by
  rw [← fallback_tableOf mode]
  apply ((tableOf mode).isBest_bestMatch line.bytes line.textEnd).eq_fallback
  intro r hr e he
  exact le_textEnd_of_mem_ends hr he (Nat.le_refl _)

end Shell

/-! ### Runs of reads -/

namespace Cursor

/-- The tokens of the first `n` reads and the cursor behind them. The mode of each read is chosen
from the tokens before it. -/
def reads (g : Grammar) (choose : List Token → Mode) (c : Cursor) : Nat → List Token × Cursor
  | 0 => ([], c)
  | n + 1 =>
    let (tokens, c') := reads g choose c n
    let (token, c'') := c'.read g (choose tokens)
    (tokens ++ [token], c'')

theorem reads_succ (g : Grammar) (choose : List Token → Mode) (c : Cursor) (n : Nat) :
    c.reads g choose (n + 1) =
      ((c.reads g choose n).1 ++ [((c.reads g choose n).2.read g (choose (c.reads g choose n).1)).1],
        ((c.reads g choose n).2.read g (choose (c.reads g choose n).1)).2) := rfl

end Cursor

namespace Shell

variable {line : Line} {c : Cursor}

/-- A read before the end of the text moves the cursor over a token of the text. -/
theorem read_of_lt_textEnd (mode : Mode) (h : c.pos < c.line.textEnd) :
    ∃ t, c.read grammar mode = (t, ⟨c.line, t.span.stop⟩) ∧ t.span.start = c.pos ∧
      c.pos < t.span.stop ∧ t.span.stop ≤ c.line.textEnd ∧ t.terminal ≠ .eolTok := by
  obtain ⟨hwidth, hstop, hterminal⟩ := bestMatch_of_lt_textEnd mode h
  exact ⟨_, rfl, rfl, hwidth, hstop, hterminal⟩

theorem read_textEnd (mode : Mode) (h : c.pos = c.line.textEnd) :
    c.read grammar mode = (⟨.eolTok, ⟨c.pos, c.pos⟩⟩, c) := by
  have hmatch : (grammar.table mode).bestMatch c.line.bytes c.pos = ⟨.eolTok, c.pos⟩ := by
    rw [h]
    exact bestMatch_textEnd mode
  unfold Cursor.read
  rw [hmatch]

/-- What holds between two reads: the cursor is within the text, the tokens so far tile the bytes
before it, and while it is not at the end, each read has taken a byte. -/
structure Advanced (line : Line) (tokens : List Token) (c : Cursor) (n : Nat) : Prop where
  line_eq : c.line = line
  pos_le : c.pos ≤ line.textEnd
  tiles : Span.Tiles ((tokens.filter fun t => !t.isFallback).map Token.span) 0 c.pos
  reads_le : min n line.textEnd ≤ c.pos

theorem Advanced.read {tokens : List Token} {n : Nat} (h : Advanced line tokens c n) (mode : Mode) :
    Advanced line (tokens ++ [(c.read grammar mode).1]) (c.read grammar mode).2 (n + 1) := by
  obtain ⟨rfl, hpos, htiles, hreads⟩ := h
  obtain heq | hlt := Nat.eq_or_lt_of_le hpos
  · rw [read_textEnd mode heq]
    have hfallback : (⟨.eolTok, ⟨c.pos, c.pos⟩⟩ : Token).isFallback = true :=
      decide_eq_true (Nat.le_refl c.pos)
    refine ⟨rfl, hpos, ?_, ?_⟩
    · simpa [List.filter_append, hfallback] using htiles
    · dsimp only
      omega
  · obtain ⟨t, hread, hstart, hwidth, hstop, _⟩ := read_of_lt_textEnd mode hlt
    have hkept : t.isFallback = false := decide_eq_false (by rw [hstart]; omega)
    rw [hread]
    refine ⟨rfl, hstop, ?_, ?_⟩
    · simpa [List.filter_append, hkept] using htiles.concat hstart hwidth
    · dsimp only
      omega

theorem advanced_reads (line : Line) (choose : List Token → Mode) (n : Nat) :
    Advanced line ((Cursor.atStart line).reads grammar choose n).1
      ((Cursor.atStart line).reads grammar choose n).2 n := by
  induction n with
  | zero =>
    refine ⟨rfl, Nat.zero_le _, rfl, ?_⟩
    rw [Nat.zero_min]
    exact Nat.zero_le _
  | succ n ih =>
    rw [Cursor.reads_succ]
    exact ih.read _

/-- Whatever modes are chosen, reading goes on from token to token up to the first NUL byte, or the
end of the line, and stays there; the tokens that are not empty tile the bytes up to there. -/
theorem reads_tile_text (line : Line) (choose : List Token → Mode) (n : Nat) :
    ∃ tokens c, (Cursor.atStart line).reads grammar choose n = (tokens, c) ∧
      c.pos ≤ line.textEnd ∧
      (c.pos < line.textEnd → ∀ mode, ∃ t, c.read grammar mode = (t, ⟨line, t.span.stop⟩) ∧
        t.span.start = c.pos ∧ c.pos < t.span.stop ∧ t.span.stop ≤ line.textEnd ∧
        t.terminal ≠ .eolTok) ∧
      (c.pos = line.textEnd → ∀ mode,
        c.read grammar mode = (⟨.eolTok, ⟨line.textEnd, line.textEnd⟩⟩, c)) ∧
      (line.textEnd ≤ n → c.pos = line.textEnd ∧
        Span.Tiles ((tokens.filter fun t => !t.isFallback).map Token.span) 0 line.textEnd ∧
        (tokens.filter fun t => !t.isFallback).flatMap (fun t => (t.text line).toList) =
          line.bytes.toList.take line.textEnd) := by
  have hadvanced := advanced_reads line choose n
  rcases hrun : (Cursor.atStart line).reads grammar choose n with ⟨tokens, c⟩
  rw [hrun] at hadvanced
  dsimp only at hadvanced
  obtain ⟨rfl, hpos, htiles, hreads⟩ := hadvanced
  refine ⟨tokens, c, rfl, hpos, fun hlt mode => read_of_lt_textEnd mode hlt, ?_, ?_⟩
  · intro heq mode
    rw [read_textEnd mode heq, heq]
  · intro hn
    have heq : c.pos = c.line.textEnd := by omega
    rw [heq] at htiles
    refine ⟨heq, htiles, ?_⟩
    rw [htiles.flatMap_text c.line.textEnd_le_size, List.drop_zero]

/-- A reader of `a "b` and a NUL byte that turns to the rules of double quotes at the quote. -/
theorem reads_tile_text_quote :
    (Line.ofString "a \"b\x00").textEnd ≤ 5 ∧
      ∃ tokens c, (Cursor.atStart (Line.ofString "a \"b\x00")).reads grammar
          (fun tokens => if tokens.any (·.terminal == .leftDoubleQuote) then .doubleQuoted
            else .command) 5 = (tokens, c) ∧
        c.pos = (Line.ofString "a \"b\x00").textEnd ∧
        Span.Tiles ((tokens.filter fun t => !t.isFallback).map Token.span) 0
          (Line.ofString "a \"b\x00").textEnd := by
  have hend : (Line.ofString "a \"b\x00").textEnd ≤ 5 := by decide
  obtain ⟨tokens, c, hrun, _, _, _, hlast⟩ := reads_tile_text (Line.ofString "a \"b\x00")
    (fun tokens => if tokens.any (·.terminal == .leftDoubleQuote) then .doubleQuoted
      else .command) 5
  exact ⟨hend, tokens, c, hrun, (hlast hend).1, (hlast hend).2.1⟩

/-! ### Tokens in one mode -/

theorem pos_le_textEnd_of_lexes {mode : Mode} {d : Cursor} {tokens : List Token}
    (h : c.Lexes grammar mode tokens d) (hpos : c.pos ≤ c.line.textEnd) :
    d.pos ≤ d.line.textEnd := by
  induction h with
  | done c => exact hpos
  | @read c c' d t tokens hread hwidth _ ih =>
    obtain heq | hlt := Nat.eq_or_lt_of_le hpos
    · have hfallback : (c.read grammar mode).1.isFallback = true := by
        rw [read_textEnd mode heq]
        exact decide_eq_true (Nat.le_refl _)
      rw [hread, hwidth] at hfallback
      contradiction
    · obtain ⟨t', hread', _, _, hstop, _⟩ := read_of_lt_textEnd mode hlt
      obtain ⟨rfl, rfl⟩ := Prod.mk.inj (hread.symm.trans hread')
      exact ih hstop

/-- The tokens of a line lead to the end of its text. -/
theorem tokens_stop (mode : Mode) (line : Line) :
    ((Cursor.atStart line).tokens grammar mode).2 = ⟨line, line.textEnd⟩ := by
  have hstart : (Cursor.atStart line).pos ≤ (Cursor.atStart line).line.size := Nat.zero_le _
  obtain ⟨hlexes, hfallback⟩ := Cursor.lexes_tokens grammar mode hstart
  rcases hrun : (Cursor.atStart line).tokens grammar mode with ⟨tokens, d⟩
  rw [hrun] at hlexes hfallback
  obtain rfl : d.line = line := hlexes.line_eq
  have hpos := pos_le_textEnd_of_lexes hlexes (Nat.zero_le _)
  have hend : ¬ d.pos < d.line.textEnd := by
    intro hlt
    obtain ⟨t, hread, hspan, hwidth, _⟩ := read_of_lt_textEnd mode hlt
    have hstop : t.span.stop ≤ t.span.start := by
      rw [hread] at hfallback
      exact of_decide_eq_true hfallback
    omega
  exact congrArg (Cursor.mk d.line) (Nat.le_antisymm hpos (Nat.not_lt.1 hend))

theorem tiles_tokens (mode : Mode) (line : Line) :
    Span.Tiles (((Cursor.atStart line).tokens grammar mode).1.map Token.span) 0 line.textEnd := by
  have hstart : (Cursor.atStart line).pos ≤ (Cursor.atStart line).line.size := Nat.zero_le _
  have htiles := (Cursor.lexes_tokens grammar mode hstart).1.tiles
  rwa [tokens_stop] at htiles

theorem bestMatch_of_mem_tokens {mode : Mode} {t : Token}
    (ht : t ∈ ((Cursor.atStart line).tokens grammar mode).1) :
    (tableOf mode).bestMatch line.bytes t.span.start = ⟨t.terminal, t.span.stop⟩ := by
  have hstart : (Cursor.atStart line).pos ≤ (Cursor.atStart line).line.size := Nat.zero_le _
  exact ((Cursor.lexes_tokens grammar mode hstart).1.bestMatch_of_mem hstart t ht).2

/-- The token that covers a position of the text. -/
theorem exists_token_of_lt_textEnd (mode : Mode) {p : Nat} (hp : p < line.textEnd) :
    ∃ t ∈ ((Cursor.atStart line).tokens grammar mode).1, t.span.start ≤ p ∧ p < t.span.stop := by
  obtain ⟨s, hs, hcover⟩ := (tiles_tokens mode line).exists_mem (Nat.zero_le p) hp
  obtain ⟨t, ht, rfl⟩ := List.mem_map.1 hs
  exact ⟨t, ht, hcover⟩

/-- Two tokens do not cover one position. -/
theorem start_eq_of_covers {mode : Mode} {t t' : Token} {p : Nat}
    (ht : t ∈ ((Cursor.atStart line).tokens grammar mode).1)
    (ht' : t' ∈ ((Cursor.atStart line).tokens grammar mode).1)
    (hp : t.span.start ≤ p ∧ p < t.span.stop) (hp' : t'.span.start ≤ p ∧ p < t'.span.stop) :
    t.span.start = t'.span.start :=
  congrArg Span.start ((tiles_tokens mode line).eq_of_mem (List.mem_map_of_mem ht)
    (List.mem_map_of_mem ht') hp hp')

end Shell

end ShellTokens
