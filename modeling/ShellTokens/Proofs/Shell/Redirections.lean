import Mathlib.Data.Finset.Max
import ShellTokens.Proofs.Grammar.Queries
import ShellTokens.Proofs.Shell.Progress
import ShellTokens.Proofs.Table.States

/-!
# Redirections of a command

A redirection begins with the number of a file descriptor, which may be missing. A number is also
the beginning of a word, so where digits stand, what follows them decides: with an operator behind
them they are part of the redirection, with the longest operator there is, and otherwise they are
part of a word. Nothing else is read as a redirection.
-/

namespace ShellTokens.Shell

open Pattern

/-- The operators before which the number of a file descriptor can stand. -/
def operators : List (List UInt8 × Terminal) :=
  [("<", .redirLess), (">", .redirGreat), ("<<", .redirDLess), ("<<<", .redirTLess),
    (">>", .redirDGreat), (">&", .redirGreatAnd), ("<&", .redirLessAnd),
    ("<<-", .redirDLessDash), ("<>", .redirLessGreat), (">|", .redirClobber)].map
  fun (op, terminal) => (op.toUTF8.data.toList, terminal)

/-- The longest of the operators that stand at the position. -/
structure LongestOperatorAt (line : Line) (i : Nat) (op : List UInt8) (terminal : Terminal) :
    Prop where
  mem : (op, terminal) ∈ operators
  isPrefix : op <+: line.bytes.toList.drop i
  length_le : ∀ other ∈ operators, other.1 <+: line.bytes.toList.drop i →
    other.1.length ≤ op.length

/-- An angle bracket stands at the position. -/
def AngleAt (line : Line) (i : Nat) : Prop :=
  line.bytes[i]? = some 0x3c ∨ line.bytes[i]? = some 0x3e

/-- The position behind all digits from `start` on. -/
def behindDigits (line : Line) (start : Nat) : Nat :=
  start + ((line.bytes.toList.drop start).takeWhile ByteSet.digit.contains).length

/-- A single angle bracket opens a process substitution if no digit stands before it and a
parenthesis behind it. -/
def OpensProcSub (line : Line) (start : Nat) (op : List UInt8) : Prop :=
  behindDigits line start = start ∧ op.length = 1 ∧ line.bytes[start + 1]? = some 0x28

def procSubOpener (op : List UInt8) : Terminal :=
  if op = [0x3c] then .leftProcSubIn else .leftProcSubOut

variable {line : Line} {op : List UInt8} {terminal : Terminal} {start i : Nat} {b : UInt8}
  {t : Table}

/-! ### Operators -/

theorem exists_longestOperatorAt (h : AngleAt line i) :
    ∃ op terminal, LongestOperatorAt line i op terminal := by
  obtain ⟨pair, hpair, hfirst⟩ : ∃ pair ∈ operators, pair.1 <+: line.bytes.toList.drop i := by
    rcases h with hb | hb
    · refine ⟨([0x3c], .redirLess), by decide, ?_⟩
      rw [Bytes.drop_toList_of_getElem? hb]
      exact List.prefix_append [0x3c] _
    · refine ⟨([0x3e], .redirGreat), by decide, ?_⟩
      rw [Bytes.drop_toList_of_getElem? hb]
      exact List.prefix_append [0x3e] _
  have hmem : ∀ other, other ∈ (operators.filter fun other =>
      other.1 <+: line.bytes.toList.drop i).toFinset ↔
        other ∈ operators ∧ other.1 <+: line.bytes.toList.drop i := by
    simp
  obtain ⟨longest, hlongest, hmax⟩ :=
    Finset.exists_max_image _ (fun other => other.1.length) ⟨pair, (hmem pair).2 ⟨hpair, hfirst⟩⟩
  obtain ⟨hoperator, hspells⟩ := (hmem longest).1 hlongest
  exact ⟨longest.1, longest.2, hoperator, hspells, fun other hother hspells =>
    hmax other ((hmem other).2 ⟨hother, hspells⟩)⟩

theorem operators_distinct : ∀ pair ∈ operators, ∀ other ∈ operators, pair.1 = other.1 →
    pair = other := by
  decide

theorem LongestOperatorAt.unique {op' : List UInt8} {terminal' : Terminal}
    (h : LongestOperatorAt line i op terminal) (h' : LongestOperatorAt line i op' terminal') :
    (op, terminal) = (op', terminal') := by
  have hle := h.length_le _ h'.mem h'.isPrefix
  have hge := h'.length_le _ h.mem h.isPrefix
  have hpart := List.prefix_of_prefix_length_le h.isPrefix h'.isPrefix hge
  exact operators_distinct _ h.mem _ h'.mem (hpart.eq_of_length (Nat.le_antisymm hge hle))

/-- A table that takes an operator finds the longest one, if it goes on behind it only to longer
ones. -/
theorem bestMatch_of_longestOperatorAt (ht : t.Consistent)
    (hop : LongestOperatorAt line i op terminal) (htakes : t.takesAll op = true)
    (hfallback : (t.along op).fallback = terminal)
    (hlonger : ∀ b, line.bytes[i + op.length]? = some b →
      (t.along op).firstBytes.contains b = true → op ++ [b] ∈ operators.map Prod.fst) :
    t.bestMatch line.bytes i = ⟨terminal, i + op.length⟩ := by
  rw [Table.bestMatch_eq_along ht htakes hop.isPrefix, ← hfallback]
  apply Table.bestMatch_of_not_firstBytes
  intro b hb
  rw [← Bool.not_eq_true]
  intro hfirst
  -- the operator and the byte behind it would be a longer operator
  obtain ⟨other, hother, hword⟩ := List.mem_map.1 (hlonger b hb hfirst)
  have hle := hop.length_le other hother (hword ▸ Bytes.concat_prefix hop.isPrefix hb)
  rw [hword, List.length_append, List.length_singleton] at hle
  omega

/-! ### Digits -/

theorem drop_behindDigits (line : Line) (start : Nat) :
    line.bytes.toList.drop (behindDigits line start) =
      (line.bytes.toList.drop start).dropWhile ByteSet.digit.contains := by
  rw [behindDigits, ← List.drop_drop, Bytes.drop_length_takeWhile]

theorem not_digit_behindDigits (hb : line.bytes[behindDigits line start]? = some b) :
    ByteSet.digit.contains b = false :=
  Bytes.not_of_getElem?_behind_run hb

theorem behindDigits_of_digit (hb : line.bytes[start]? = some b)
    (hdigit : ByteSet.digit.contains b = true) :
    behindDigits line start = behindDigits line (start + 1) := by
  rw [behindDigits, Bytes.drop_toList_of_getElem? hb, List.takeWhile_cons_of_pos hdigit,
    List.length_cons, Nat.add_comm _ 1, ← Nat.add_assoc, behindDigits]

theorem le_behindDigits (line : Line) (start : Nat) : start ≤ behindDigits line start :=
  Nat.le_add_right _ _

theorem lt_behindDigits (h : behindDigits line start ≠ start) : start < behindDigits line start :=
  Nat.lt_of_le_of_ne (le_behindDigits line start) h.symm

theorem exists_digit_of_lt (h : start < behindDigits line start) :
    ∃ b, line.bytes[start]? = some b ∧ ByteSet.digit.contains b = true := by
  cases hb : line.bytes[start]? with
  | none => simp [behindDigits, Bytes.drop_toList_of_getElem?_eq_none hb] at h
  | some b =>
    refine ⟨b, rfl, ?_⟩
    by_contra hdigit
    simp [behindDigits, Bytes.drop_toList_of_getElem? hb, hdigit] at h

/-- A run of bytes to which the digits belong takes them all and goes on behind them. -/
theorem add_length_takeWhile_of_digits {set : ByteSet}
    (hset : ∀ b, ByteSet.digit.contains b = true → set.contains b = true) (line : Line)
    (start : Nat) :
    start + ((line.bytes.toList.drop start).takeWhile set.contains).length =
      behindDigits line start + ((line.bytes.toList.drop (behindDigits line start)).takeWhile
        set.contains).length := by
  have hdigits : ∀ b ∈ (line.bytes.toList.drop start).takeWhile ByteSet.digit.contains,
      set.contains b = true := fun b hb => hset b (List.mem_takeWhile_imp hb)
  rw [drop_behindDigits, behindDigits, Nat.add_assoc, ← List.length_append,
    ← List.takeWhile_append_of_pos hdigits, List.takeWhile_append_dropWhile]

theorem nameRest_of_digit (hdigit : ByteSet.digit.contains b = true) :
    ByteSet.nameRest.contains b = true := by
  simp [ByteSet.nameRest, hdigit]

theorem wordChar_of_digit (hdigit : ByteSet.digit.contains b = true) :
    wordChar.contains b = true := by
  simp [wordChar, nameRest_of_digit hdigit]

/-! ### Without a number -/

theorem along_operator : ∀ pair ∈ operators,
    command.takesAll pair.1 = true ∧ (command.along pair.1).fallback = pair.2 ∧
      ∀ b ∈ (command.along pair.1).firstBytes.toList,
        pair.1 ++ [b] ∈ operators.map Prod.fst ∨ pair.1.length = 1 ∧ b = 0x28 := by
  decide +kernel

theorem decided?_procSub : ∀ pair ∈ operators, pair.1.length = 1 →
    command.decided? (pair.1 ++ [0x28]) = some (procSubOpener pair.1) := by
  decide

/-- A redirection begins with a digit or an angle bracket. -/
theorem firstBytes_of_redirection : ∀ r ∈ command.rules, r.terminal ∈ operators.map Prod.snd →
    ∀ b ∈ r.pattern.firstBytes.toList,
      ByteSet.digit.contains b = true ∨ b = 0x3c ∨ b = 0x3e := by
  decide +kernel

theorem bestMatch_operator (hop : LongestOperatorAt line start op terminal)
    (hparen : ¬ (op.length = 1 ∧ line.bytes[start + 1]? = some 0x28)) :
    command.bestMatch line.bytes start = ⟨terminal, start + op.length⟩ := by
  obtain ⟨htakes, hfallback, hnext⟩ := along_operator _ hop.mem
  refine bestMatch_of_longestOperatorAt consistent_command hop htakes hfallback ?_
  intro b hb hfirst
  rcases hnext b (ByteSet.mem_toList.2 hfirst) with hlonger | ⟨hlength, rfl⟩
  · exact hlonger
  · exact absurd ⟨hlength, hlength ▸ hb⟩ hparen

theorem bestMatch_procSub (hop : LongestOperatorAt line start op terminal) (hlength : op.length = 1)
    (hparen : line.bytes[start + 1]? = some 0x28) :
    command.bestMatch line.bytes start = ⟨procSubOpener op, start + 2⟩ := by
  have hspells := Bytes.concat_prefix hop.isPrefix (hlength ▸ hparen)
  have hmatch := Table.bestMatch_of_decided? consistent_command
    (decided?_procSub _ hop.mem hlength) hspells
  rwa [List.length_append, hlength] at hmatch

/-- Where neither a digit nor an angle bracket stands, no rule for a redirection can begin. -/
theorem terminal_of_not_angle (hdigits : behindDigits line start = start)
    (hangle : ¬ AngleAt line start) :
    (command.bestMatch line.bytes start).terminal ∉ operators.map Prod.snd := by
  intro hmem
  have hne : (command.bestMatch line.bytes start).terminal ≠ command.fallback := by
    intro heq
    rw [heq] at hmem
    exact absurd hmem (by decide)
  obtain ⟨r, hr, hr', b, hb, hcontains⟩ :=
    (command.isBest_bestMatch line.bytes start).exists_firstByte hne
  rcases firstBytes_of_redirection r hr (hr' ▸ hmem) b (ByteSet.mem_toList.2 hcontains) with
    hdigit | rfl | rfl
  · have hnot : ByteSet.digit.contains b = false := by
      rw [← hdigits] at hb
      exact not_digit_behindDigits hb
    rw [hdigit] at hnot
    contradiction
  · exact hangle (Or.inl hb)
  · exact hangle (Or.inr hb)

/-! ### Behind a number -/

/-- What is left of the rules behind digits: the operators and the rest of a word. -/
def numbered : Table where
  rules := operators.map (fun (op, terminal) => rule (concat [star .digit, literal op]) terminal) ++
    [rule (star wordChar) .litChars]
  fallback := .litChars

theorem consistent_numbered : numbered.Consistent := by
  decide

theorem moves_numbered : command.moves .digit numbered = true := by
  decide

theorem loops_numbered : numbered.moves .digit numbered = true := by
  decide

theorem numbered_along_operator : ∀ pair ∈ operators,
    numbered.takesAll pair.1 = true ∧ (numbered.along pair.1).fallback = pair.2 ∧
      ∀ b ∈ (numbered.along pair.1).firstBytes.toList, pair.1 ++ [b] ∈ operators.map Prod.fst := by
  decide +kernel

theorem firstBytes_numbered : numbered.firstBytes = wordChar ∪ ByteSet.ofList [0x3c, 0x3e] := by
  decide

theorem moves_wordChar :
    numbered.moves (ByteSet.nameStart ∪ ByteSet.ofText "/.-") (Table.run wordChar .litChars) =
      true := by
  decide

theorem bestMatch_of_digits (h : start < behindDigits line start) :
    command.bestMatch line.bytes start =
      numbered.bestMatch line.bytes (behindDigits line start) := by
  obtain ⟨b, hb, hdigit⟩ := exists_digit_of_lt h
  rw [Table.bestMatch_of_moves consistent_command moves_numbered hb hdigit,
    Table.bestMatch_of_loops consistent_numbered loops_numbered, behindDigits_of_digit hb hdigit,
    behindDigits]

theorem bestMatch_numbered_operator (hop : LongestOperatorAt line i op terminal) :
    numbered.bestMatch line.bytes i = ⟨terminal, i + op.length⟩ := by
  obtain ⟨htakes, hfallback, hnext⟩ := numbered_along_operator _ hop.mem
  exact bestMatch_of_longestOperatorAt consistent_numbered hop htakes hfallback
    fun b _ hfirst => hnext b (ByteSet.mem_toList.2 hfirst)

/-- Where no operator follows, the digits are part of a word. -/
theorem bestMatch_numbered_word (hangle : ¬ AngleAt line i)
    (hdigit : ∀ b, line.bytes[i]? = some b → ByteSet.digit.contains b = false) :
    numbered.bestMatch line.bytes i =
      ⟨.litChars, i + ((line.bytes.toList.drop i).takeWhile wordChar.contains).length⟩ := by
  by_cases hword : ∃ b, line.bytes[i]? = some b ∧ wordChar.contains b = true
  · obtain ⟨b, hb, hchar⟩ := hword
    have hcls : (ByteSet.nameStart ∪ ByteSet.ofText "/.-").contains b = true := by
      simpa [wordChar, ByteSet.nameRest, hdigit b hb] using hchar
    exact Table.bestMatch_of_moves_into_run consistent_numbered moves_wordChar hb hcls hchar
  · have hnone : ∀ b, line.bytes[i]? = some b → wordChar.contains b = false := by
      simpa using hword
    rw [Bytes.takeWhile_drop_eq_nil hnone]
    apply Table.bestMatch_of_not_firstBytes
    intro b hb
    have hnot : b ≠ 0x3c ∧ b ≠ 0x3e :=
      ⟨fun h => hangle (Or.inl (h ▸ hb)), fun h => hangle (Or.inr (h ▸ hb))⟩
    simp [firstBytes_numbered, hnone b hb, hnot]

/-! ### Both cases -/

theorem bestMatch_of_angle (hop : LongestOperatorAt line (behindDigits line start) op terminal) :
    (OpensProcSub line start op →
        command.bestMatch line.bytes start = ⟨procSubOpener op, start + 2⟩) ∧
      (¬ OpensProcSub line start op →
        command.bestMatch line.bytes start = ⟨terminal, behindDigits line start + op.length⟩) := by
  constructor
  · rintro ⟨hdigits, hlength, hparen⟩
    rw [hdigits] at hop
    exact bestMatch_procSub hop hlength hparen
  · intro hnot
    by_cases hdigits : behindDigits line start = start
    · rw [hdigits] at hop ⊢
      exact bestMatch_operator hop fun hparen => hnot ⟨hdigits, hparen⟩
    · have hlt := lt_behindDigits hdigits
      rw [bestMatch_of_digits hlt, bestMatch_numbered_operator hop]

theorem bestMatch_word (hlt : start < behindDigits line start)
    (hangle : ¬ AngleAt line (behindDigits line start)) :
    command.bestMatch line.bytes start =
      ⟨.litChars, start + ((line.bytes.toList.drop start).takeWhile wordChar.contains).length⟩ := by
  rw [bestMatch_of_digits hlt, bestMatch_numbered_word hangle fun _ => not_digit_behindDigits,
    ← add_length_takeWhile_of_digits fun _ => wordChar_of_digit]

theorem litChars_not_operator : Terminal.litChars ∉ operators.map Prod.snd := by
  decide

theorem procSubOpener_not_operator : procSubOpener op ∉ operators.map Prod.snd := by
  rw [procSubOpener]
  split <;> decide

theorem le_size_of_angle (h : AngleAt line (behindDigits line start)) : start ≤ line.size := by
  have hlt : behindDigits line start < line.size := by
    rcases h with hb | hb <;> exact (Array.getElem?_eq_some_iff.1 hb).1
  exact (le_behindDigits line start).trans (Nat.le_of_lt hlt)

theorem le_size_of_digits (h : start < behindDigits line start) : start ≤ line.size := by
  obtain ⟨b, hb, _⟩ := exists_digit_of_lt h
  exact Nat.le_of_lt (Array.getElem?_eq_some_iff.1 hb).1

/-- The terminal of an operator is found for a redirection only. -/
theorem exists_operator_of_terminal
    (hmem : (command.bestMatch line.bytes start).terminal ∈ operators.map Prod.snd) :
    ∃ op terminal, LongestOperatorAt line (behindDigits line start) op terminal ∧
      ¬ OpensProcSub line start op ∧
      command.bestMatch line.bytes start = ⟨terminal, behindDigits line start + op.length⟩ := by
  by_cases hangle : AngleAt line (behindDigits line start)
  · obtain ⟨op, terminal, hop⟩ := exists_longestOperatorAt hangle
    obtain ⟨hprocSub, hoperator⟩ := bestMatch_of_angle hop
    by_cases hopens : OpensProcSub line start op
    · rw [hprocSub hopens] at hmem
      exact absurd hmem procSubOpener_not_operator
    · exact ⟨op, terminal, hop, hopens, hoperator hopens⟩
  · by_cases hdigits : behindDigits line start = start
    · rw [hdigits] at hangle
      exact absurd hmem (terminal_of_not_angle hdigits hangle)
    · rw [bestMatch_word (lt_behindDigits hdigits) hangle] at hmem
      exact absurd hmem litChars_not_operator

/-- In a command, the digits before a redirection operator are part of the redirection, and nothing
but such an operator, with or without digits before it, is one. Digits before anything else are part
of a word. -/
theorem tokenAt_redirection (line : Line) (start : Nat) :
    (AngleAt line (behindDigits line start) →
      ∃ op terminal, LongestOperatorAt line (behindDigits line start) op terminal ∧
        (OpensProcSub line start op →
          grammar.tokenAt .command line start = .ok ⟨procSubOpener op, start + 2⟩) ∧
        (¬ OpensProcSub line start op →
          grammar.tokenAt .command line start =
            .ok ⟨terminal, behindDigits line start + op.length⟩)) ∧
    (∀ found, grammar.tokenAt .command line start = .ok found →
      found.terminal ∈ operators.map Prod.snd →
        ∃ op terminal, LongestOperatorAt line (behindDigits line start) op terminal ∧
          ¬ OpensProcSub line start op ∧
          found = ⟨terminal, behindDigits line start + op.length⟩) ∧
    (start < behindDigits line start → ¬ AngleAt line (behindDigits line start) →
      grammar.tokenAt .command line start = .ok ⟨.litChars,
        start + ((line.bytes.toList.drop start).takeWhile wordChar.contains).length⟩) := by
  have hmatch : start ≤ line.size →
      grammar.tokenAt .command line start = .ok (command.bestMatch line.bytes start) :=
    Grammar.tokenAt_eq_ok grammar .command
  refine ⟨?_, ?_, ?_⟩
  · intro hangle
    obtain ⟨op, terminal, hop⟩ := exists_longestOperatorAt hangle
    obtain ⟨hprocSub, hoperator⟩ := bestMatch_of_angle hop
    rw [hmatch (le_size_of_angle hangle)]
    exact ⟨op, terminal, hop, fun h => congrArg _ (hprocSub h), fun h => congrArg _ (hoperator h)⟩
  · intro found htoken hmem
    obtain ⟨_, rfl⟩ := Grammar.tokenAt_eq_ok_iff.1 htoken
    exact exists_operator_of_terminal hmem
  · intro hlt hangle
    rw [hmatch (le_size_of_digits hlt), bestMatch_word hlt hangle]

/-- Two digits, the longest of three operators, and a word behind them. -/
theorem tokenAt_redirection_hereDoc :
    grammar.tokenAt .command ⟨#[0x3b, 0x31, 0x32, 0x3c, 0x3c, 0x2d, 0x78]⟩ 1 =
      .ok ⟨.redirDLessDash, 6⟩ := by
  have hangle : AngleAt ⟨#[0x3b, 0x31, 0x32, 0x3c, 0x3c, 0x2d, 0x78]⟩
      (behindDigits ⟨#[0x3b, 0x31, 0x32, 0x3c, 0x3c, 0x2d, 0x78]⟩ 1) :=
    Or.inl (by decide)
  obtain ⟨op, terminal, hop, _, hfound⟩ := (tokenAt_redirection _ _).1 hangle
  have hlongest : LongestOperatorAt ⟨#[0x3b, 0x31, 0x32, 0x3c, 0x3c, 0x2d, 0x78]⟩ 3
      [0x3c, 0x3c, 0x2d] .redirDLessDash :=
    ⟨by decide, by decide +kernel, by decide +kernel⟩
  obtain ⟨rfl, rfl⟩ := Prod.mk.inj (hop.unique hlongest)
  have hnot : ¬ OpensProcSub ⟨#[0x3b, 0x31, 0x32, 0x3c, 0x3c, 0x2d, 0x78]⟩ 1
      [0x3c, 0x3c, 0x2d] := fun h => absurd h.2.1 (by decide)
  exact hfound hnot

end ShellTokens.Shell
