import ShellTokens.Proofs.Shell.Progress
import ShellTokens.Proofs.Table.States

/-!
# Dollar signs

Nine modes expand what a dollar sign begins. Their tables are put together from shared groups of
rules in different orders, but behind a dollar sign they are one table, up to the openers, the
quotes and what a dollar sign is by itself. So the bytes behind the dollar sign tell the token, in
the same way in each of these modes.
-/

namespace ShellTokens.Shell

open Pattern

/-- The modes in which a dollar sign begins variables and substitutions. -/
def expandingModes : List Mode :=
  [.command, .doubleBracket, .doubleQuoted, .arith, .extGlob, .varSubArg, .quotedVarSubArg, .regex,
    .hereDoc]

/-- The modes of text within double quotes, where the openers have terminals of their own. -/
def withinQuotes (mode : Mode) : Bool :=
  mode ∈ [.doubleQuoted, .quotedVarSubArg, .hereDoc]

/-- The modes in which a dollar sign and a quote open a string together. -/
def opensDollarQuotes (mode : Mode) : Bool :=
  mode ∈ [.command, .doubleBracket, .extGlob, .varSubArg, .regex]

def commandSubOpener (mode : Mode) : Terminal :=
  if withinQuotes mode then .leftDqCommandSub else .leftCommandSub

def arithSubOpener (mode : Mode) : Terminal :=
  if withinQuotes mode then .leftDqArithSub else .leftArithSub

def varSubOpener (mode : Mode) : Terminal :=
  if withinQuotes mode then .leftDqVarSub else .leftVarSub

def bracketOpener (mode : Mode) : Terminal :=
  if withinQuotes mode then .leftDqArithSub2 else .leftArithSub2

/-- A double or a single quote behind the dollar sign. -/
def dollarQuotes (mode : Mode) : List (UInt8 × Terminal) :=
  if opensDollarQuotes mode then
    [(0x22, .leftDollarDoubleQuote), (0x27, .leftDollarSingleQuote)]
  else []

/-- The special variables: `$!`, `$@`, `$#`, `$$`, `$*`, `$-` and `$?`. -/
def specialVars : List (UInt8 × Terminal) :=
  [(0x21, .vSubBang), (0x40, .vSubAt), (0x23, .vSubPound), (0x24, .vSubDollar), (0x2a, .vSubStar),
    (0x2d, .vSubHyphen), (0x3f, .vSubQMark)]

/-- A dollar sign that begins nothing. -/
def loneDollar (mode : Mode) : Terminal :=
  if mode = .arith then .unknownTok else .litOther

/-- The bytes that make a token of two bytes with the dollar sign before them. -/
def dollarPairs (mode : Mode) : List (UInt8 × Terminal) :=
  (0x7b, varSubOpener mode) :: (0x5b, bracketOpener mode) :: dollarQuotes mode ++ specialVars

/-- The token of the dollar sign at `start`, by the bytes behind it. -/
def dollarToken (mode : Mode) (start : Nat) : List UInt8 → Match
  | [] => ⟨loneDollar mode, start + 1⟩
  | b :: rest =>
    if ByteSet.nameStart.contains b then
      ⟨.vSubDollarName, start + 2 + (rest.takeWhile ByteSet.nameRest.contains).length⟩
    else if ByteSet.digit.contains b then ⟨.vSubNumber, start + 2⟩
    else if b = 0x28 then
      if rest.head? = some 0x28 then ⟨arithSubOpener mode, start + 3⟩
      else ⟨commandSubOpener mode, start + 2⟩
    else
      match (dollarPairs mode).lookup b with
      | some terminal => ⟨terminal, start + 2⟩
      | none => ⟨loneDollar mode, start + 1⟩

variable {mode : Mode} {line : Line} {input : Bytes} {start i : Nat} {b : UInt8}
  {terminal : Terminal}

/-! ### The state behind a dollar sign -/

/-- Rules for single bytes. -/
def bytePairs (items : List (UInt8 × Terminal)) : List Rule :=
  items.map fun (b, terminal) => rule (literal [b]) terminal

/-- What is left behind a dollar sign. -/
def dollarTable (mode : Mode) : Table where
  rules :=
    [rule (literal [0x28]) (commandSubOpener mode), rule (literal [0x7b]) (varSubOpener mode),
      rule (literal [0x28, 0x28]) (arithSubOpener mode),
      rule (literal [0x5b]) (bracketOpener mode)] ++
    bytePairs (dollarQuotes mode) ++
    [rule varName .vSubDollarName, rule (oneOf .digit) .vSubNumber] ++
    bytePairs specialVars
  fallback := loneDollar mode

/-- What is left behind a dollar sign and a parenthesis. -/
def dollarParenTable (mode : Mode) : Table where
  rules := [rule (literal [0x28]) (arithSubOpener mode)]
  fallback := commandSubOpener mode

/-- The nine tables are one behind a dollar sign. -/
theorem moves_dollarTable : ∀ mode ∈ expandingModes,
    (tableOf mode).takes 0x24 = true ∧ (tableOf mode).next 0x24 = dollarTable mode := by
  decide

theorem consistent_dollarTable (hmode : mode ∈ expandingModes) : (dollarTable mode).Consistent :=
  (moves_dollarTable mode hmode).2 ▸ (consistent_tableOf mode).next 0x24

theorem moves_nameStart : ∀ mode ∈ expandingModes,
    (dollarTable mode).moves .nameStart (Table.run .nameRest .vSubDollarName) = true := by
  decide

theorem moves_digit : ∀ mode ∈ expandingModes,
    (dollarTable mode).moves .digit ⟨[], .vSubNumber⟩ = true := by
  decide

theorem next_paren : ∀ mode ∈ expandingModes,
    (dollarTable mode).takes 0x28 = true ∧
      (dollarTable mode).next 0x28 = dollarParenTable mode := by
  decide

theorem decided?_dollarPairs : ∀ mode ∈ expandingModes, ∀ pair ∈ dollarPairs mode,
    (dollarTable mode).decided? [pair.1] = some pair.2 := by
  decide

theorem decided?_parens : ∀ mode ∈ expandingModes,
    (dollarTable mode).decided? [0x28, 0x28] = some (arithSubOpener mode) := by
  decide

theorem firstBytes_dollarTable : ∀ mode ∈ expandingModes,
    (dollarTable mode).firstBytes = ByteSet.nameStart ∪ ByteSet.digit ∪ ByteSet.ofList [0x28] ∪
      ByteSet.ofList ((dollarPairs mode).map Prod.fst) := by
  decide

theorem firstBytes_dollarParenTable : ∀ mode ∈ expandingModes,
    (dollarParenTable mode).firstBytes = ByteSet.ofList [0x28] := by
  decide

/-! ### The byte behind the dollar sign -/

theorem bestMatch_name (hmode : mode ∈ expandingModes) (hbyte : input[i]? = some b)
    (hb : ByteSet.nameStart.contains b = true) :
    (dollarTable mode).bestMatch input i = ⟨.vSubDollarName,
      i + 1 + ((input.toList.drop (i + 1)).takeWhile ByteSet.nameRest.contains).length⟩ := by
  rw [Table.bestMatch_of_moves (consistent_dollarTable hmode) (moves_nameStart mode hmode) hbyte hb,
    Table.bestMatch_run]

theorem bestMatch_digit (hmode : mode ∈ expandingModes) (hbyte : input[i]? = some b)
    (hb : ByteSet.digit.contains b = true) :
    (dollarTable mode).bestMatch input i = ⟨.vSubNumber, i + 1⟩ :=
  Table.bestMatch_of_moves (consistent_dollarTable hmode) (moves_digit mode hmode) hbyte hb

theorem bestMatch_parens (hmode : mode ∈ expandingModes)
    (hspells : [0x28, 0x28] <+: input.toList.drop i) :
    (dollarTable mode).bestMatch input i = ⟨arithSubOpener mode, i + 2⟩ :=
  Table.bestMatch_of_decided? (consistent_dollarTable hmode) (decided?_parens mode hmode) hspells

theorem bestMatch_paren (hmode : mode ∈ expandingModes) (hbyte : input[i]? = some 0x28)
    (hnext : input[i + 1]? ≠ some 0x28) :
    (dollarTable mode).bestMatch input i = ⟨commandSubOpener mode, i + 1⟩ := by
  obtain ⟨htakes, hstate⟩ := next_paren mode hmode
  rw [Table.bestMatch_eq_next (consistent_dollarTable hmode) hbyte htakes, hstate]
  exact Table.bestMatch_of_firstBytes (firstBytes_dollarParenTable mode hmode)
    (by simpa using hnext)

theorem bestMatch_pair (hmode : mode ∈ expandingModes) (hbyte : input[i]? = some b)
    (hpair : (b, terminal) ∈ dollarPairs mode) :
    (dollarTable mode).bestMatch input i = ⟨terminal, i + 1⟩ := by
  have hspells : [b] <+: input.toList.drop i := ⟨_, (Bytes.drop_toList_of_getElem? hbyte).symm⟩
  exact Table.bestMatch_of_decided? (consistent_dollarTable hmode)
    (decided?_dollarPairs mode hmode _ hpair) hspells

/-- Nothing else goes on behind the dollar sign. -/
theorem bestMatch_lone (hmode : mode ∈ expandingModes)
    (h : ∀ b, input[i]? = some b → ByteSet.nameStart.contains b = false ∧
      ByteSet.digit.contains b = false ∧ b ≠ 0x28 ∧ ∀ pair ∈ dollarPairs mode, b ≠ pair.1) :
    (dollarTable mode).bestMatch input i = ⟨loneDollar mode, i⟩ := by
  apply Table.bestMatch_of_not_firstBytes
  intro b hb
  obtain ⟨hname, hdigit, hparen, hpairs⟩ := h b hb
  rw [firstBytes_dollarTable mode hmode]
  simpa [hname, hdigit, hparen] using fun terminal hpair => hpairs (b, terminal) hpair rfl

/-- What is left behind the dollar sign finds the token that the bytes tell. -/
theorem bestMatch_dollarTable (hmode : mode ∈ expandingModes) (input : Bytes) (start : Nat) :
    (dollarTable mode).bestMatch input (start + 1) =
      dollarToken mode start (input.toList.drop (start + 1)) := by
  cases hbyte : input[start + 1]? with
  | none =>
    rw [Bytes.drop_toList_of_getElem?_eq_none hbyte]
    exact bestMatch_lone hmode (by simp [hbyte])
  | some b =>
    have hdrop := Bytes.drop_toList_of_getElem? hbyte
    rw [hdrop, dollarToken]
    split_ifs with hname hdigit hparen hparens
    · exact bestMatch_name hmode hbyte hname
    · exact bestMatch_digit hmode hbyte hdigit
    · subst hparen
      rw [List.head?_drop, Array.getElem?_toList] at hparens
      apply bestMatch_parens hmode
      rw [hdrop, Bytes.drop_toList_of_getElem? hparens]
      exact List.prefix_append [0x28, 0x28] _
    · subst hparen
      rw [List.head?_drop, Array.getElem?_toList] at hparens
      exact bestMatch_paren hmode hbyte hparens
    · split
      · next terminal hpair =>
        obtain ⟨before, behind, hpairs, _⟩ := List.lookup_eq_some_iff.1 hpair
        exact bestMatch_pair hmode hbyte (hpairs ▸ by simp)
      · next hpairs =>
        apply bestMatch_lone hmode
        intro c hc
        obtain rfl : b = c := Option.some.inj (hbyte.symm.trans hc)
        refine ⟨by simpa using hname, by simpa using hdigit, hparen, fun pair hpair => ?_⟩
        exact bne_iff_ne.1 (List.lookup_eq_none_iff.1 hpairs pair hpair)

/-- In each mode that expands them, the bytes behind a dollar sign tell its token. -/
theorem tokenAt_dollar (hmode : mode ∈ expandingModes) (hdollar : line.bytes[start]? = some 0x24) :
    grammar.tokenAt mode line start =
      .ok (dollarToken mode start (line.bytes.toList.drop (start + 1))) := by
  have hstart : start < line.size := (Array.getElem?_eq_some_iff.1 hdollar).1
  obtain ⟨htakes, hstate⟩ := moves_dollarTable mode hmode
  rw [Grammar.tokenAt_eq_ok grammar mode (Nat.le_of_lt hstart), ← bestMatch_dollarTable hmode,
    ← hstate]
  exact congrArg _ (Table.bestMatch_eq_next (consistent_tableOf mode) hdollar htakes)

/-- A name in a here-document ends before a byte that no name goes on with. -/
theorem tokenAt_dollar_name :
    Mode.hereDoc ∈ expandingModes ∧
      (⟨#[0x78, 0x24, 0x61, 0x5f, 0x31, 0x2e]⟩ : Line).bytes[1]? = some 0x24 ∧
      grammar.tokenAt .hereDoc ⟨#[0x78, 0x24, 0x61, 0x5f, 0x31, 0x2e]⟩ 1 =
        .ok ⟨.vSubDollarName, 5⟩ := by
  have hmode : Mode.hereDoc ∈ expandingModes := by decide
  refine ⟨hmode, rfl, (tokenAt_dollar hmode rfl).trans ?_⟩
  decide

end ShellTokens.Shell
