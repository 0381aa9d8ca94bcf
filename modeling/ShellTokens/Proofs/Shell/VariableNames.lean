import ShellTokens.Proofs.Shell.DollarSigns

/-!
# Names of variables

What the name of a variable is can be asked of a function, and the tables say it by patterns: where
a parameter is named within braces, in arithmetic, behind a dollar sign, and before an assignment or
a bracket. All of them agree on every string of bytes. A bracket or an equals sign behind a name
lets no other rule take both, whatever keywords, digits or operators the name begins with.
-/

namespace ShellTokens

namespace Pattern

variable {p : Pattern} {s u w : List UInt8}

/-- The words that end with a known word, of a sequence that does. -/
theorem append_mem_language_concat :
    s ++ w ∈ (concat [p, literal (u ++ w)]).language ↔ ∃ v ∈ p.language, s = v ++ u := by
  simp only [language_concat, List.map_cons, List.map_nil, List.prod_cons, List.prod_nil, mul_one,
    Language.mem_mul, mem_language_literal]
  constructor
  · rintro ⟨v, hv, _, rfl, heq⟩
    rw [← List.append_assoc] at heq
    exact ⟨v, hv, (List.append_cancel_right heq).symm⟩
  · rintro ⟨v, hv, rfl⟩
    exact ⟨v, hv, u ++ w, rfl, (List.append_assoc v u w).symm⟩

end Pattern

namespace Table

variable {t : Table} {input : Bytes} {i : Nat} {terminal : Terminal} {r : Rule}

/-! ### Matches up to the end of the input -/

theorem size_mem_ends_iff {p : Pattern} (hi : i ≤ input.size) :
    input.size ∈ p.ends input i ↔ input.toList.drop i ∈ p.language := by
  have hextract : (input.extract i input.size).toList = input.toList.drop i := by
    simp [List.extract_eq_take_drop]
  rw [Pattern.mem_ends_iff hi, Bytes.spells_iff_extract hi, hextract]
  simp [hi]

/-- A match that takes all bytes is a word of a rule with its terminal. -/
theorem exists_rule_of_bestMatch_eq_size (hi : i ≤ input.size) (hne : terminal ≠ t.fallback)
    (h : t.bestMatch input i = ⟨terminal, input.size⟩) :
    ∃ r ∈ t.rules, r.terminal = terminal ∧ input.toList.drop i ∈ r.pattern.language := by
  have hbest := t.isBest_bestMatch input i
  rw [h] at hbest
  obtain ⟨r, hr, hterminal, hend⟩ := hbest.exists_rule (hbest.lt_stop_of_ne hne)
  exact ⟨r, hr, hterminal.symm, (size_mem_ends_iff hi).1 hend⟩

/-- If all rules that describe the rest of the input have one terminal, this is the match. -/
theorem bestMatch_eq_size_of_forall (hi : i < input.size) (hr : r ∈ t.rules)
    (hword : input.toList.drop i ∈ r.pattern.language)
    (hsame : ∀ q ∈ t.rules, input.toList.drop i ∈ q.pattern.language → q.terminal = terminal) :
    t.bestMatch input i = ⟨terminal, input.size⟩ := by
  have hle := Nat.le_of_lt hi
  have hbest := t.isBest_bestMatch input i
  have hstop : (t.bestMatch input i).stop = input.size :=
    Nat.le_antisymm (hbest.stop_le_size hle)
      (hbest.le_of_mem_ends hr ((size_mem_ends_iff hle).2 hword))
  obtain ⟨q, hq, hterminal, hend⟩ := hbest.exists_rule (hstop ▸ hi)
  rw [hstop, size_mem_ends_iff hle] at hend
  exact congrArg₂ Match.mk (hterminal.trans (hsame q hq hend)) hstop

end Table

namespace Shell

open Pattern

variable {t : Table} {s w : List UInt8} {name input : Bytes} {i : Nat} {mode : Mode}
  {terminal : Terminal}

/-! ### Names -/

theorem mem_language_varName_iff :
    w ∈ varName.language ↔ ∃ b rest, w = b :: rest ∧ ByteSet.nameStart.contains b = true ∧
      ∀ a ∈ rest, ByteSet.nameRest.contains a = true := by
  simp only [varName, language_concat, List.map_cons, List.map_nil, List.prod_cons, List.prod_nil,
    mul_one, Language.mem_mul, mem_language_oneOf, Pattern.star, mem_language_runOf]
  constructor
  · rintro ⟨_, ⟨b, hb, rfl⟩, rest, ⟨_, hrest⟩, rfl⟩
    exact ⟨b, rest, rfl, hb, hrest⟩
  · rintro ⟨b, rest, rfl, hb, hrest⟩
    exact ⟨[b], ⟨b, hb, rfl⟩, rest, ⟨Nat.zero_le _, hrest⟩, rfl⟩

theorem isVarName_iff : isVarName name = true ↔ name.toList ∈ varName.language := by
  rw [mem_language_varName_iff, isVarName]
  cases name.toList with
  | nil => simp
  | cons b rest => simp

/-- Where names have one rule and no other rule goes on behind their first byte, the rest of an
input is their match exactly if it is a name. -/
theorem bestMatch_eq_size_iff_name (ht : t.Consistent)
    (hmoves : t.moves .nameStart (Table.run .nameRest terminal) = true)
    (hrules : ∀ r ∈ t.rules, r.terminal = terminal → r.pattern = varName)
    (hne : terminal ≠ t.fallback) (hi : i ≤ input.size) :
    t.bestMatch input i = ⟨terminal, input.size⟩ ↔ input.toList.drop i ∈ varName.language := by
  constructor
  · intro h
    obtain ⟨r, hr, hterminal, hword⟩ := Table.exists_rule_of_bestMatch_eq_size hi hne h
    rwa [hrules r hr hterminal] at hword
  · intro h
    obtain ⟨b, rest, hdrop, hb, hrest⟩ := mem_language_varName_iff.1 h
    have hspells : b :: rest <+: input.toList.drop i := hdrop ▸ List.prefix_refl _
    have hbyte := Bytes.getElem?_of_cons_prefix hspells
    have hsize : i + (rest.length + 1) = input.size := by
      have hlength := congrArg List.length hdrop
      simp only [List.length_drop, Array.length_toList, List.length_cons] at hlength
      omega
    rw [Bytes.drop_toList_of_getElem? hbyte, List.cons.injEq] at hdrop
    rw [Table.bestMatch_of_moves ht hmoves hbyte hb, Table.bestMatch_run, hdrop.2,
      List.takeWhile_eq_self_iff.2 hrest, ← hsize, Nat.add_assoc, Nat.add_comm 1]

/-! ### Behind a dollar sign -/

theorem mem_expandingModes : ∀ mode ∈ Mode.all, ∀ r ∈ (tableOf mode).rules,
    r.terminal = .vSubDollarName → mode ∈ expandingModes := by
  decide

theorem pattern_of_dollarName : ∀ mode ∈ expandingModes,
    Terminal.vSubDollarName ≠ (dollarTable mode).fallback ∧
      ∀ r ∈ (dollarTable mode).rules, r.terminal = .vSubDollarName → r.pattern = varName := by
  decide

theorem bestMatch_dollar_iff :
    (tableOf mode).bestMatch (#[0x24] ++ name) 0 = ⟨.vSubDollarName, name.size + 1⟩ ↔
      mode ∈ expandingModes ∧ isVarName name = true := by
  have hsize : name.size + 1 = (#[0x24] ++ name).size := by simp [Nat.add_comm]
  have hname : (#[0x24] ++ name).toList.drop 1 = name.toList := by simp
  rw [hsize, isVarName_iff, ← hname]
  by_cases hmode : mode ∈ expandingModes
  · obtain ⟨htakes, hstate⟩ := moves_dollarTable mode hmode
    obtain ⟨hne, hrules⟩ := pattern_of_dollarName mode hmode
    have hdollar : (#[0x24] ++ name)[0]? = some 0x24 := by
      rw [Array.getElem?_append_left (by simp)]
      rfl
    rw [Table.bestMatch_eq_next (consistent_tableOf mode) hdollar htakes, hstate,
      bestMatch_eq_size_iff_name (consistent_dollarTable hmode) (moves_nameStart mode hmode) hrules
        hne (by simp)]
    simp [hmode]
  · refine iff_of_false ?_ fun h => hmode h.1
    intro h
    have hne : Terminal.vSubDollarName ≠ (tableOf mode).fallback := by
      rw [fallback_tableOf]
      decide
    obtain ⟨r, hr, hterminal, _⟩ := Table.exists_rule_of_bestMatch_eq_size (Nat.zero_le _) hne h
    exact hmode (mem_expandingModes mode mode.mem_all r hr hterminal)

/-! ### Within braces and in arithmetic -/

theorem moves_varSubName :
    varSubName.moves .nameStart (Table.run .nameRest .vSubName) = true ∧
      ∀ r ∈ varSubName.rules, r.terminal = .vSubName → r.pattern = varName := by
  decide

theorem moves_arith :
    arith.moves .nameStart (Table.run .nameRest .litArithVarLike) = true ∧
      ∀ r ∈ arith.rules, r.terminal = .litArithVarLike → r.pattern = varName := by
  decide

/-! ### Before an assignment or a bracket -/

/-- The bytes that make a name the left side of an assignment or the name of an array. -/
def nameEnds : List (UInt8 × Terminal) :=
  [(0x3d, .litVarLike), (0x5b, .litArrayLhsOpen)]

theorem terminal_of_nameEnd : ∀ pair ∈ nameEnds, ∀ r ∈ command.rules,
    r.pattern.laterLetters.contains pair.1 = true →
      ∀ b ∈ ByteSet.nameStart.toList, r.pattern.firstBytes.contains b = true →
        r.terminal = pair.2 := by
  decide +kernel

/-- The patterns for names before such a byte; a plus sign may stand before the equals sign. -/
theorem pattern_of_nameEnd :
    (∀ r ∈ command.rules, r.terminal = .litArrayLhsOpen →
      r.pattern = concat [varName, literal [0x5b]]) ∧
    (∀ r ∈ command.rules, r.terminal = .litVarLike →
      r.pattern = concat [varName, literal [0x3d]] ∨
        r.pattern = concat [varName, literal [0x2b, 0x3d]]) := by
  decide

theorem exists_rule_of_nameEnd :
    (∃ r ∈ command.rules, r.pattern = concat [varName, literal [0x5b]]) ∧
    (∃ r ∈ command.rules, r.pattern = concat [varName, literal [0x3d]]) ∧
    (∃ r ∈ command.rules, r.pattern = concat [varName, literal [0x2b, 0x3d]]) := by
  decide

/-- A name and such a byte are taken together, with whatever stands between them. -/
theorem bestMatch_of_nameEnd {b c : UInt8} {middle : List UInt8} (hend : (c, terminal) ∈ nameEnds)
    (hb : ByteSet.nameStart.contains b = true) (hinput : input.toList = b :: middle ++ [c])
    {p : Pattern} (hp : ∃ r ∈ command.rules, r.pattern = p) (hword : input.toList ∈ p.language) :
    command.bestMatch input 0 = ⟨terminal, input.size⟩ := by
  obtain ⟨r, hr, rfl⟩ := hp
  have hpos : 0 < input.size := by
    rw [← Array.length_toList, hinput]
    simp
  apply Table.bestMatch_eq_size_of_forall hpos hr hword
  intro q hq hqword
  rw [List.drop_zero, hinput] at hqword
  have hlater := contains_laterLetters_of_mem hqword
    (List.mem_append_right middle (List.mem_singleton_self c))
  have hfirst := contains_firstBytes_of_cons_mem hqword
  exact terminal_of_nameEnd _ hend q hq hlater b (ByteSet.mem_toList.2 hb) hfirst

theorem mem_language_before (c : UInt8) :
    s ++ [c] ∈ (concat [varName, literal [c]]).language ↔ s ∈ varName.language := by
  simpa using append_mem_language_concat (p := varName) (s := s) (u := []) (w := [c])

theorem bestMatch_bracket_iff :
    command.bestMatch (name ++ #[0x5b]) 0 = ⟨.litArrayLhsOpen, name.size + 1⟩ ↔
      isVarName name = true := by
  have hsize : name.size + 1 = (name ++ #[0x5b]).size := by simp
  have hinput : (name ++ #[0x5b]).toList = name.toList ++ [0x5b] := by simp
  rw [hsize, isVarName_iff]
  constructor
  · intro h
    obtain ⟨r, hr, hterminal, hword⟩ :=
      Table.exists_rule_of_bestMatch_eq_size (Nat.zero_le _) (by decide) h
    rw [pattern_of_nameEnd.1 r hr hterminal, List.drop_zero, hinput] at hword
    exact (mem_language_before _).1 hword
  · intro h
    obtain ⟨b, rest, hname, hb, _⟩ := mem_language_varName_iff.1 h
    refine bestMatch_of_nameEnd (by decide) hb (hname ▸ hinput) exists_rule_of_nameEnd.1 ?_
    rw [hinput]
    exact (mem_language_before _).2 h

theorem bestMatch_equals_iff :
    command.bestMatch (name ++ #[0x3d]) 0 = ⟨.litVarLike, name.size + 1⟩ ↔
      isVarName name = true ∨ ∃ t, name = t ++ #[0x2b] ∧ isVarName t = true := by
  have hsize : name.size + 1 = (name ++ #[0x3d]).size := by simp
  have hinput : (name ++ #[0x3d]).toList = name.toList ++ [0x3d] := by simp
  simp only [hsize, isVarName_iff]
  constructor
  · intro h
    obtain ⟨r, hr, hterminal, hword⟩ :=
      Table.exists_rule_of_bestMatch_eq_size (Nat.zero_le _) (by decide) h
    rw [List.drop_zero, hinput] at hword
    rcases pattern_of_nameEnd.2 r hr hterminal with hpattern | hpattern
    · rw [hpattern] at hword
      exact Or.inl ((mem_language_before _).1 hword)
    · rw [hpattern] at hword
      obtain ⟨v, hv, hname⟩ := append_mem_language_concat (u := [0x2b]).1 hword
      exact Or.inr ⟨v.toArray, Array.toList_inj.1 (by simpa using hname), hv⟩
  · rintro (h | ⟨t, rfl, h⟩)
    · obtain ⟨b, rest, hname, hb, _⟩ := mem_language_varName_iff.1 h
      refine bestMatch_of_nameEnd (by decide) hb (hname ▸ hinput) exists_rule_of_nameEnd.2.1 ?_
      rw [hinput]
      exact (mem_language_before _).2 h
    · obtain ⟨b, rest, hname, hb, _⟩ := mem_language_varName_iff.1 h
      have hname' : (t ++ #[0x2b]).toList = b :: (rest ++ [0x2b]) := by simp [hname]
      refine bestMatch_of_nameEnd (by decide) hb (hname' ▸ hinput) exists_rule_of_nameEnd.2.2 ?_
      rw [hinput]
      exact append_mem_language_concat (u := [0x2b]).2 ⟨_, h, by simp⟩

/-- A string of bytes is a name exactly if the tables take the whole of it for one: within braces,
in arithmetic, behind a dollar sign in each mode with variables, and before a bracket. Before an
equals sign it may end in a plus sign. -/
theorem tokenAt_varName_iff (name : Bytes) :
    (grammar.tokenAt .varSubName ⟨name⟩ 0 = .ok ⟨.vSubName, name.size⟩ ↔ isVarName name = true) ∧
    (grammar.tokenAt .arith ⟨name⟩ 0 = .ok ⟨.litArithVarLike, name.size⟩ ↔
      isVarName name = true) ∧
    (∀ mode, grammar.tokenAt mode ⟨#[0x24] ++ name⟩ 0 = .ok ⟨.vSubDollarName, name.size + 1⟩ ↔
      mode ∈ expandingModes ∧ isVarName name = true) ∧
    (grammar.tokenAt .command ⟨name ++ #[0x5b]⟩ 0 = .ok ⟨.litArrayLhsOpen, name.size + 1⟩ ↔
      isVarName name = true) ∧
    (grammar.tokenAt .command ⟨name ++ #[0x3d]⟩ 0 = .ok ⟨.litVarLike, name.size + 1⟩ ↔
      isVarName name = true ∨ ∃ t, name = t ++ #[0x2b] ∧ isVarName t = true) := by
  simp only [Grammar.tokenAt_eq_ok grammar _ (Nat.zero_le _), Except.ok.injEq]
  refine ⟨?_, ?_, fun _ => bestMatch_dollar_iff, bestMatch_bracket_iff, bestMatch_equals_iff⟩
  · rw [isVarName_iff]
    exact bestMatch_eq_size_iff_name (consistent_tableOf .varSubName) moves_varSubName.1
      moves_varSubName.2 (by decide) (Nat.zero_le _)
  · rw [isVarName_iff]
    exact bestMatch_eq_size_iff_name (consistent_tableOf .arith) moves_arith.1 moves_arith.2
      (by decide) (Nat.zero_le _)

/-- A keyword is a name too. -/
example : grammar.tokenAt .command (Line.ofString "for[") 0 = .ok ⟨.litArrayLhsOpen, 4⟩ := by
  decide

end Shell

end ShellTokens
