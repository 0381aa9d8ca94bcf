import ShellTokens.Proofs.Pattern.Alphabet
import ShellTokens.Proofs.Pattern.ByteClasses
import ShellTokens.Proofs.Report.LineReport
import ShellTokens.Proofs.Shell.Progress
import ShellTokens.Proofs.Text.Utf8

/-!
# Text is not cut within a character

A table joins the bytes of a class if some rule takes any run of them and each other rule takes none
of them or one byte only: no match then ends between two bytes of the class. In the modes that read
text, the bytes that are not ASCII are joined, so that each token is a part of the text.
-/

namespace ShellTokens

/-! ### Bytes that are joined -/

namespace Pattern

variable {p : Pattern} {cls : ByteSet} {input : Bytes} {i e : Nat} {b : UInt8}

/-- Whether each run of bytes of the class is a word. -/
def runsOver (cls : ByteSet) : Pattern → Bool
  | run r => decide (r.min ≤ 1) && cls.compl ∪ r.set == .full
  | _ => false

theorem exists_run_of_runsOver (h : p.runsOver cls = true) :
    ∃ r, p = run r ∧ r.min ≤ 1 ∧ ∀ b, cls.contains b = true → r.set.contains b = true := by
  unfold runsOver at h
  split at h
  · next r =>
    rw [Bool.and_eq_true, decide_eq_true_eq, beq_iff_eq] at h
    exact ⟨r, rfl, h.1, fun b hb => ByteSet.contains_of_cup_eq_full h.2 hb⟩
  · contradiction

theorem succ_mem_ends_of_runsOver (h : p.runsOver cls = true) (hi : i ≤ input.size)
    (he : e ∈ p.ends input i) (hb : input[e]? = some b) (hcls : cls.contains b = true) :
    e + 1 ∈ p.ends input i := by
  obtain ⟨r, rfl, -, hset⟩ := exists_run_of_runsOver h
  rw [mem_ends_iff hi] at he ⊢
  obtain ⟨w, hw, hprefix, rfl⟩ := he
  obtain ⟨hmin, hall⟩ := mem_language_run.1 hw
  refine ⟨w ++ [b], mem_language_run.2 ⟨?_, ?_⟩, Bytes.concat_prefix hprefix hb, ?_⟩
  · simp
    omega
  · simpa [or_imp, forall_and] using ⟨hall, hset b hcls⟩
  · simp [Nat.add_assoc]

theorem succ_mem_ends_of_byte (h : p.runsOver cls = true) (hb : input[i]? = some b)
    (hcls : cls.contains b = true) : i + 1 ∈ p.ends input i := by
  obtain ⟨r, rfl, hmin, hset⟩ := exists_run_of_runsOver h
  have hi : i < input.size := (Array.getElem?_eq_some_iff.1 hb).1
  rw [mem_ends_iff (Nat.le_of_lt hi)]
  have hprefix : [b] <+: input.toList.drop i := by simp [Bytes.drop_toList_of_getElem? hb]
  exact ⟨[b], mem_language_run.2 ⟨hmin, by simpa using hset b hcls⟩, hprefix, rfl⟩

end Pattern

namespace Table

variable {t : Table} {cls : ByteSet} {input : Bytes} {i j : Nat} {a b : UInt8}

/-- Whether some rule takes any run of bytes of the class and each other rule none of them, or one
byte only. -/
def joins (t : Table) (cls : ByteSet) : Bool :=
  (t.rules.any fun r => r.pattern.runsOver cls) &&
    t.rules.all fun r => r.pattern.runsOver cls || cls.compl ∪ r.pattern.letters.compl == .full ||
      r.pattern.laterLetters.isEmpty

/-- A match that goes beyond one byte of the class goes beyond the next one. -/
theorem stop_ne_of_joins (h : t.joins cls = true) (hi : i ≤ input.size) (hij : i ≤ j)
    (ha : input[j]? = some a) (hb : input[j + 1]? = some b) (hacls : cls.contains a = true)
    (hbcls : cls.contains b = true) : (t.bestMatch input i).stop ≠ j + 1 := by
  intro hstop
  have hbest := t.isBest_bestMatch input i
  rw [joins, Bool.and_eq_true, List.any_eq_true, List.all_eq_true] at h
  obtain ⟨⟨q, hq, hruns⟩, hrules⟩ := h
  obtain ⟨r, hr, -, he⟩ := hbest.exists_rule (by omega)
  rw [hstop] at he
  -- some rule goes on over the next byte
  obtain ⟨p, hp, hnext⟩ : ∃ p ∈ t.rules, j + 1 + 1 ∈ p.pattern.ends input i := by
    have hspells := (Pattern.mem_ends_iff hi).1 he
    have hrule := hrules r hr
    simp only [Bool.or_eq_true, beq_iff_eq] at hrule
    obtain (hrun | hletters) | hsingle := hrule
    · exact ⟨r, hr, Pattern.succ_mem_ends_of_runsOver hrun hi he hb hbcls⟩
    · obtain ⟨w, hw, c, hc, hbyte⟩ := hspells.exists_mem hij (Nat.lt_succ_self j)
      obtain rfl : a = c := Option.some_inj.1 (ha.symm.trans hbyte)
      have hnot := ByteSet.contains_of_cup_eq_full hletters hacls
      simp [Pattern.contains_letters_of_mem hw hc] at hnot
    · obtain rfl | hlt := Nat.eq_or_lt_of_le hij
      · refine ⟨q, hq, Pattern.succ_mem_ends_of_runsOver hruns hi ?_ hb hbcls⟩
        exact Pattern.succ_mem_ends_of_byte hruns ha hacls
      · obtain ⟨_, w, hw, c, hc, -⟩ := hspells.exists_later hlt (Nat.lt_succ_self j)
        have hlater := Pattern.contains_laterLetters_of_mem hw hc
        rw [ByteSet.isEmpty_iff] at hsingle
        simp [hsingle c] at hlater
  have := hbest.le_of_mem_ends hp hnext
  omega

end Table

/-! ### Parts of a text -/

theorem Token.text_ofString_append {t : Token} {before part rest : String}
    (hstart : t.span.start = before.utf8ByteSize)
    (hstop : t.span.stop = (before ++ part).utf8ByteSize) :
    t.text (.ofString (before ++ part ++ rest)) = Bytes.ofString part := by
  have hsize : (before ++ part ++ rest).utf8ByteSize =
      (before ++ part).utf8ByteSize + rest.utf8ByteSize := String.utf8ByteSize_append
  have hle : t.span.start ≤ t.span.stop := by simp [hstart, hstop]
  have hfits : t.span.stop ≤ (Line.ofString (before ++ part ++ rest)).size := by
    change t.span.stop ≤ (before ++ part ++ rest).utf8ByteSize
    omega
  have hline : (Line.ofString (before ++ part ++ rest)).bytes.toList =
      (Bytes.ofString (before ++ part)).toList ++ (Bytes.ofString rest).toList := by
    simp [Line.ofString, Bytes.ofString_append]
  rw [← Array.toList_inj, Token.toList_text hle hfits, hline,
    List.take_left' (by rw [hstop, Bytes.length_toList_ofString]), Bytes.ofString_append,
    Array.toList_append, List.drop_left' (by rw [hstart, Bytes.length_toList_ofString])]

/-- Tokens that stop between characters are parts of the text, one after the other. -/
theorem Span.Tiles.exists_parts {tokens : List Token} {before after : String} {hi : Nat}
    (h : Span.Tiles (tokens.map Token.span) before.utf8ByteSize hi)
    (hstops : ∀ t ∈ tokens, String.Pos.Raw.IsValid (before ++ after) ⟨t.span.stop⟩) :
    ∃ (parts : List String) (rest : String), after = String.join parts ++ rest ∧
      tokens.map (Token.text · (.ofString (before ++ after))) = parts.map Bytes.ofString := by
  induction tokens generalizing before after with
  | nil => exact ⟨[], after, by simp, rfl⟩
  | cons t tokens ih =>
    obtain ⟨hstart, hlt, htail⟩ := h
    obtain ⟨hstop, hstops⟩ := List.forall_mem_cons.1 hstops
    obtain ⟨part, rest, rfl, hsize⟩ : ∃ part rest : String, after = part ++ rest ∧
        part.utf8ByteSize = t.span.stop - before.utf8ByteSize := by
      obtain hbefore | ⟨-, hafter⟩ := String.Pos.Raw.isValid_append.1 hstop
      · have hle : t.span.stop ≤ before.utf8ByteSize := hbefore.le_utf8ByteSize
        omega
      · exact Text.exists_append_of_isValid hafter
    have hbehind : t.span.stop = (before ++ part).utf8ByteSize := by
      rw [String.utf8ByteSize_append]
      omega
    rw [hbehind] at htail
    rw [← String.append_assoc] at hstops ⊢
    obtain ⟨parts, rest', rfl, htexts⟩ := ih htail hstops
    refine ⟨part :: parts, rest', ?_, ?_⟩
    · rw [String.join_cons, String.append_assoc]
    · rw [List.map_cons, List.map_cons, htexts, Token.text_ofString_append hstart hbehind]

namespace Shell

/-- The modes that read text up to a few special characters. -/
def textModes : List Mode :=
  [.comment, .backtick, .singleQuoted, .doubleQuoted, .quotedVarSubArg, .hereDoc]

def nonAscii : ByteSet :=
  .range 0x80 0xff

theorem joins_nonAscii : ∀ mode ∈ textModes, (tableOf mode).joins nonAscii = true := by
  decide

theorem contains_nonAscii {b : UInt8} (hb : 0x80 ≤ b) : nonAscii.contains b = true := by
  have hmax : b ≤ 0xff := Nat.le_of_lt_succ b.toNat_lt
  simp [nonAscii, hb, hmax]

/-- A match from a position between characters ends at such a position. -/
theorem isValid_stop {mode : Mode} (hmode : mode ∈ textModes) {text : String} {start : Nat}
    (hstart : String.Pos.Raw.IsValid text ⟨start⟩) :
    String.Pos.Raw.IsValid text ⟨((tableOf mode).bestMatch (Bytes.ofString text) start).stop⟩ := by
  have hi : start ≤ (Bytes.ofString text).size := hstart.le_utf8ByteSize
  have hbest := (tableOf mode).isBest_bestMatch (Bytes.ofString text) start
  by_contra hcut
  obtain heq | hlt := Nat.eq_or_lt_of_le hbest.le_stop
  · exact hcut (heq ▸ hstart)
  obtain ⟨j, hj⟩ := Nat.exists_eq_add_of_lt hlt
  rw [hj] at hcut
  obtain ⟨a, b, ha, hb, hanon, hbnon⟩ :=
    Text.exists_bytes_of_not_isValid (hj ▸ hbest.stop_le_size hi) hcut
  exact Table.stop_ne_of_joins (joins_nonAscii mode hmode) hi (Nat.le_add_right start j) ha hb
    (contains_nonAscii hanon) (contains_nonAscii hbnon) hj

variable {mode : Mode} {text : String}

theorem isValid_stop_of_lexes {c d : Cursor} {tokens : List Token} (hmode : mode ∈ textModes)
    (h : c.Lexes grammar mode tokens d) (hline : c.line = .ofString text)
    (hpos : String.Pos.Raw.IsValid text ⟨c.pos⟩) :
    ∀ t ∈ tokens, String.Pos.Raw.IsValid text ⟨t.span.stop⟩ := by
  induction h with
  | done c => simp
  | @read c c' d t tokens hread _ _ ih =>
    obtain ⟨rfl, rfl⟩ := Prod.mk.inj hread
    have hstop : String.Pos.Raw.IsValid text ⟨(c.read grammar mode).2.pos⟩ := by
      have hbytes : c.line.bytes = Bytes.ofString text := congrArg Line.bytes hline
      have hvalid := isValid_stop hmode hpos
      rwa [← hbytes] at hvalid
    exact List.forall_mem_cons.2 ⟨hstop, ih hline hstop⟩

/-- The tokens are parts of the text, one after the other. -/
theorem exists_parts_tokens (hmode : mode ∈ textModes) (text : String) :
    ∃ (parts : List String) (rest : String), text = String.join parts ++ rest ∧
      ((Cursor.atStart (.ofString text)).tokens grammar mode).1.map
        (Token.text · (.ofString text)) = parts.map Bytes.ofString := by
  have hlexes := (Cursor.lexes_tokens grammar mode
    (c := Cursor.atStart (.ofString text)) (Nat.zero_le _)).1
  have hstops := isValid_stop_of_lexes hmode hlexes rfl String.Pos.Raw.isValid_zero
  have htiles : Span.Tiles
      (((Cursor.atStart (.ofString text)).tokens grammar mode).1.map Token.span)
      "".utf8ByteSize _ := hlexes.tiles
  simpa using htiles.exists_parts (by simpa using hstops)

theorem map_quotedText {tokens : List Token} {line : Line} {parts : List String}
    (h : tokens.map (Token.text · line) = parts.map Bytes.ofString) :
    tokens.map (Token.quotedText · line) = parts.map Text.quoted := by
  calc tokens.map (Token.quotedText · line)
      = (tokens.map (Token.text · line)).map (fun bytes => Text.quoted (Text.decode bytes)) := by
        rw [List.map_map]
        rfl
    _ = parts.map Text.quoted := by
        rw [h, List.map_map]
        exact List.map_congr_left fun part _ => congrArg Text.quoted (Text.decode_ofString part)

/-- Of a character that is not ASCII, the report on a line has no more than the text. -/
theorem count_texts_le (hmode : mode ∈ textModes) {d : Char} (hd : 0x80 ≤ d.toNat) (text : String) :
    (String.join (((Line.ofString text).lex grammar mode).texts mode)).toList.count d ≤
      text.toList.count d := by
  obtain ⟨parts, rest, htext, htexts⟩ := exists_parts_tokens hmode text
  rw [LexedLine.count_texts hd]
  calc (((Line.ofString text).lex grammar mode).tokens.flatMap fun t =>
        (t.quotedText (.ofString text)).toList).count d
      = (parts.flatMap fun part => (Text.quoted part).toList).count d := by
        have hquoted := congrArg (List.flatMap String.toList) (map_quotedText htexts)
        rw [List.flatMap_map, List.flatMap_map] at hquoted
        exact congrArg (List.count d) hquoted
    _ ≤ (parts.flatMap String.toList).count d :=
        Text.count_flatMap_le parts (Text.count_quoted_le hd)
    _ ≤ text.toList.count d := by
        rw [htext, String.toList_append, String.toList_join, List.count_append]
        exact Nat.le_add_right _ _

/-- In the modes that read text, a match from a position between two characters ends at such a
position. So the tokens of a text are parts of it, one after the other, and the report on them is
written without a replacement character that is not in the text. -/
theorem textModes_cut_between_characters (hmode : mode ∈ textModes) (text : String) :
    (∀ start, String.Pos.Raw.IsValid text ⟨start⟩ →
      ∃ found, grammar.tokenAt mode (.ofString text) start = .ok found ∧
        String.Pos.Raw.IsValid text ⟨found.stop⟩) ∧
    (∃ (parts : List String) (rest : String), text = String.join parts ++ rest ∧
      ((Cursor.atStart (.ofString text)).tokens grammar mode).1.map
        (Token.text · (.ofString text)) = parts.map Bytes.ofString) ∧
    ∀ read name, Mode.ofName name = .ok mode →
      ∃ report : String,
        Command.run grammar read (.lex name text) = ⟨0, Bytes.ofString report, ""⟩ ∧
          report.toList.count Text.replacement ≤ text.toList.count Text.replacement := by
  refine ⟨fun start hstart => ?_, exists_parts_tokens hmode text, fun read name hname => ?_⟩
  · have hsize : start ≤ (Line.ofString text).size := hstart.le_utf8ByteSize
    exact ⟨_, grammar.tokenAt_eq_ok mode hsize, isValid_stop hmode hstart⟩
  · exact ⟨_, run_lex hname, count_texts_le hmode (by decide) text⟩

/-- The letter behind the `n` has two bytes. -/
theorem textModes_cut_between_characters_letter :
    Mode.doubleQuoted ∈ textModes ∧ String.Pos.Raw.IsValid "né$x" ⟨1⟩ ∧
      Mode.ofName "dq" = .ok .doubleQuoted ∧
      grammar.tokenAt .doubleQuoted (.ofString "né$x") 1 = .ok ⟨.litChars, 3⟩ ∧
      String.Pos.Raw.IsValid "né$x" ⟨3⟩ ∧
      (∃ (parts : List String) (rest : String), "né$x" = String.join parts ++ rest ∧
        ((Cursor.atStart (.ofString "né$x")).tokens grammar .doubleQuoted).1.map
          (Token.text · (.ofString "né$x")) = parts.map Bytes.ofString) ∧
      ∀ read, ∃ report : String,
        Command.run grammar read (.lex "dq" "né$x") = ⟨0, Bytes.ofString report, ""⟩ ∧
          Text.replacement ∉ report.toList := by
  have hmode : Mode.doubleQuoted ∈ textModes := by decide
  have hstart : String.Pos.Raw.IsValid "né$x" ⟨1⟩ := by decide
  have hname : Mode.ofName "dq" = .ok .doubleQuoted := by decide
  have hfound : grammar.tokenAt .doubleQuoted (.ofString "né$x") 1 = .ok ⟨.litChars, 3⟩ := by
    decide
  have hnone : "né$x".toList.count Text.replacement = 0 := by decide
  obtain ⟨hstop, hparts, hreport⟩ := textModes_cut_between_characters hmode "né$x"
  obtain ⟨found, hfound', hvalid⟩ := hstop 1 hstart
  cases hfound.symm.trans hfound'
  refine ⟨hmode, hstart, hname, hfound, hvalid, hparts, fun read => ?_⟩
  obtain ⟨report, hrun, hcount⟩ := hreport read "dq" hname
  exact ⟨report, hrun, List.count_eq_zero.1 (Nat.le_zero.1 (hnone ▸ hcount))⟩

end Shell

end ShellTokens
