import ShellTokens.Proofs.Shell.Redirections

/-!
# Numbers in arithmetic

A number begins with a digit, and nothing else does. Behind its digits it goes on in one of two
ways: with a hash sign and the digits of another base, or as long as a name does, so that `0x1F` is
one token. A hash sign that no digit of a base follows is not part of it. The byte behind the digits
tells the two ways apart, since no name has a hash sign.
-/

namespace ShellTokens.Shell

open Pattern

/-- The digits of a number that is written with its base. -/
def basedDigit : ByteSet :=
  ByteSet.nameRest.insert 0x40

/-- A hash sign stands at the position, and a digit of a base behind it. -/
def BaseAt (line : Line) (i : Nat) : Prop :=
  line.bytes[i]? = some 0x23 ∧ line.bytes[i + 1]?.any basedDigit.contains = true

instance (line : Line) (i : Nat) : Decidable (BaseAt line i) :=
  inferInstanceAs (Decidable (_ ∧ _))

/-- The position behind a number at `start`. -/
def numberStop (line : Line) (start : Nat) : Nat :=
  let base := behindDigits line start
  if BaseAt line base then
    base + 1 + ((line.bytes.toList.drop (base + 1)).takeWhile basedDigit.contains).length
  else start + ((line.bytes.toList.drop start).takeWhile ByteSet.nameRest.contains).length

variable {line : Line} {start stop i : Nat} {b : UInt8}

/-! ### The states of the table -/

/-- What is left of the rules behind digits. -/
def numberTable : Table where
  rules :=
    [rule (star .nameRest) .litDigits,
     rule (concat [star .digit, literal [0x23], plus basedDigit]) .litDigits]
  fallback := .litDigits

/-- What is left of the rules behind a hash sign. -/
def basedTable : Table where
  rules := [rule (plus basedDigit) .litDigits]
  fallback := .litDigits

theorem consistent_arith : arith.Consistent :=
  consistent_tableOf .arith

theorem consistent_numberTable : numberTable.Consistent := by
  decide

theorem moves_arith_digit : arith.moves .digit numberTable = true := by
  decide

theorem moves_numberTable :
    numberTable.moves .digit numberTable = true ∧
      numberTable.moves .nameStart (Table.run .nameRest .litDigits) = true := by
  decide

theorem next_hash : numberTable.takes 0x23 = false ∧ numberTable.next 0x23 = basedTable := by
  decide

theorem firstBytes_numberTable : numberTable.firstBytes = ByteSet.nameRest.insert 0x23 := by
  decide

/-- The rules for numbers are those that begin with a digit. -/
theorem firstBytes_of_number : Terminal.litDigits ≠ arith.fallback ∧
    ∀ r ∈ arith.rules, r.terminal = .litDigits → r.pattern.firstBytes = .digit := by
  decide

/-! ### Behind the digits -/

theorem bestMatch_basedTable (line : Line) (i : Nat) :
    basedTable.bestMatch line.bytes i =
      ⟨.litDigits, i + ((line.bytes.toList.drop i).takeWhile basedDigit.contains).length⟩ :=
  Table.bestMatch_runOf basedDigit (Nat.le_refl 1) .litDigits line.bytes i

theorem lt_stop_basedTable_iff :
    i < (basedTable.bestMatch line.bytes i).stop ↔
      line.bytes[i]?.any basedDigit.contains = true := by
  rw [bestMatch_basedTable]
  cases hb : line.bytes[i]? with
  | none => simp [Bytes.drop_toList_of_getElem?_eq_none hb]
  | some b => by_cases h : basedDigit.contains b <;> simp [Bytes.drop_toList_of_getElem? hb, h]

theorem bestMatch_numberTable_of_base (h : BaseAt line i) :
    numberTable.bestMatch line.bytes i =
      ⟨.litDigits,
        i + 1 + ((line.bytes.toList.drop (i + 1)).takeWhile basedDigit.contains).length⟩ := by
  obtain ⟨hhash, hdigit⟩ := h
  have hlt : i + 1 < ((numberTable.next 0x23).bestMatch line.bytes (i + 1)).stop := by
    rw [next_hash.2]
    exact lt_stop_basedTable_iff.2 hdigit
  rw [Table.bestMatch_eq_next_of_lt consistent_numberTable hhash hlt, next_hash.2,
    bestMatch_basedTable]

/-- The rest of a number without a base. -/
theorem bestMatch_numberTable_of_not_base (hbase : ¬ BaseAt line i)
    (hdigit : ∀ b, line.bytes[i]? = some b → ByteSet.digit.contains b = false) :
    numberTable.bestMatch line.bytes i =
      ⟨.litDigits,
        i + ((line.bytes.toList.drop i).takeWhile ByteSet.nameRest.contains).length⟩ := by
  by_cases hname : ∃ b, line.bytes[i]? = some b ∧ ByteSet.nameRest.contains b = true
  · obtain ⟨b, hb, hrest⟩ := hname
    have hstart : ByteSet.nameStart.contains b = true := by
      simpa [ByteSet.nameRest, hdigit b hb] using hrest
    exact Table.bestMatch_of_moves_into_run consistent_numberTable moves_numberTable.2 hb hstart
      hrest
  · have hnone : ∀ b, line.bytes[i]? = some b → ByteSet.nameRest.contains b = false := by
      simpa using hname
    rw [Bytes.takeWhile_drop_eq_nil hnone]
    by_cases hhash : line.bytes[i]? = some 0x23
    · -- the hash sign is looked at, but without a digit behind it nothing is found there
      apply Table.bestMatch_of_not_takes consistent_numberTable hhash next_hash.1
      rw [next_hash.2, ← Nat.not_lt, lt_stop_basedTable_iff]
      exact fun hany => hbase ⟨hhash, hany⟩
    · apply Table.bestMatch_of_not_firstBytes
      intro b hb
      have hne : b ≠ 0x23 := fun h => hhash (h ▸ hb)
      simp [firstBytes_numberTable, hnone b hb, hne]

/-! ### The whole number -/

theorem bestMatch_arith_of_digit (hb : line.bytes[start]? = some b)
    (hdigit : ByteSet.digit.contains b = true) :
    arith.bestMatch line.bytes start = ⟨.litDigits, numberStop line start⟩ := by
  have hdigits : arith.bestMatch line.bytes start =
      numberTable.bestMatch line.bytes (behindDigits line start) := by
    rw [Table.bestMatch_of_moves consistent_arith moves_arith_digit hb hdigit,
      Table.bestMatch_of_loops consistent_numberTable moves_numberTable.1,
      behindDigits_of_digit hb hdigit, behindDigits]
  rw [hdigits, numberStop]
  split_ifs with hbase
  · exact bestMatch_numberTable_of_base hbase
  · rw [bestMatch_numberTable_of_not_base hbase fun _ => not_digit_behindDigits,
      ← add_length_takeWhile_of_digits fun _ => nameRest_of_digit]

/-- In arithmetic a number is found exactly where a digit stands. It goes up to the end of the
digits of its base, if it has one, and otherwise as far as a name would. -/
theorem tokenAt_number_iff (line : Line) (start stop : Nat) :
    grammar.tokenAt .arith line start = .ok ⟨.litDigits, stop⟩ ↔
      (∃ b, line.bytes[start]? = some b ∧ ByteSet.digit.contains b = true) ∧
        stop = numberStop line start := by
  constructor
  · intro htoken
    obtain ⟨_, hfound⟩ := Grammar.tokenAt_eq_ok_iff.1 htoken
    have hbest : arith.IsBest line.bytes start ⟨.litDigits, stop⟩ :=
      hfound ▸ (grammar.table .arith).isBest_bestMatch line.bytes start
    obtain ⟨r, hr, hterminal, b, hb, hfirst⟩ := hbest.exists_firstByte firstBytes_of_number.1
    rw [firstBytes_of_number.2 r hr hterminal] at hfirst
    have hstop := hfound.trans (bestMatch_arith_of_digit hb hfirst)
    exact ⟨⟨b, hb, hfirst⟩, (Match.mk.inj hstop).2⟩
  · rintro ⟨⟨b, hb, hdigit⟩, rfl⟩
    have hstart : start < line.size := (Array.getElem?_eq_some_iff.1 hb).1
    rw [Grammar.tokenAt_eq_ok grammar .arith (Nat.le_of_lt hstart)]
    exact congrArg _ (bestMatch_arith_of_digit hb hdigit)

/-- A base, hexadecimal digits in the way of a name, and a hash sign without digits. -/
example : numberStop (Line.ofString "(16#fF_@-1)") 1 = 8 ∧
    numberStop (Line.ofString "0x1F+1") 0 = 4 ∧ numberStop (Line.ofString "16#-1") 0 = 2 := by
  decide

end ShellTokens.Shell
