import ShellTokens.Cursor
import ShellTokens.Proofs.Locality
import ShellTokens.Proofs.Tiling

/-!
# Tokens one after the other

`c.Lexes g mode tokens d` says that reading in one mode leads from the cursor `c` over the tokens,
none of them a fallback, to the cursor `d`. The tokens of a cursor are those that lead to a
fallback, and there is one way to get there. What is read does not change when bytes are put before
the line, and when bytes are put behind it, it does not change as long as no match gets there.
-/

namespace ShellTokens

/-- The token in a line before which `d` more bytes stand. -/
def Token.shift (d : Nat) (t : Token) : Token :=
  ⟨t.terminal, ⟨d + t.span.start, d + t.span.stop⟩⟩

theorem Token.isFallback_shift (d : Nat) (t : Token) : (t.shift d).isFallback = t.isFallback := by
  simp [isFallback, Span.isEmpty, shift]

theorem Token.map_shift_zero (tokens : List Token) : tokens.map (Token.shift 0) = tokens := by
  have hid : Token.shift 0 = id := by
    funext t
    simp [shift]
  rw [hid, List.map_id]

theorem Token.shift_shift (d n : Nat) (t : Token) : (t.shift n).shift d = t.shift (d + n) := by
  simp [shift, Nat.add_assoc]

namespace Cursor

variable {g : Grammar} {mode : Mode} {c d e : Cursor} {t : Token} {tokens more : List Token}

inductive Lexes (g : Grammar) (mode : Mode) : Cursor → List Token → Cursor → Prop
  | done (c : Cursor) : Lexes g mode c [] c
  | read {c c' d : Cursor} {t : Token} {tokens : List Token} (hread : c.read g mode = (t, c'))
      (hwidth : t.isFallback = false) (hrest : Lexes g mode c' tokens d) :
      Lexes g mode c (t :: tokens) d

/-! ### Single reads -/

theorem isFallback_read_eq_false_iff :
    (c.read g mode).1.isFallback = false ↔ c.pos < (c.read g mode).2.pos := by
  rw [← Nat.not_le]
  exact decide_eq_false_iff_not

/-- A fallback leaves the cursor in place. -/
theorem read_of_isFallback (h : (c.read g mode).1.isFallback = true) :
    (c.read g mode).2 = c := by
  have hle := ((g.table mode).isBest_bestMatch c.line.bytes c.pos).le_stop
  have hge : ((g.table mode).bestMatch c.line.bytes c.pos).stop ≤ c.pos := of_decide_eq_true h
  exact congrArg (Cursor.mk c.line) (Nat.le_antisymm hge hle)

variable (g mode) in
theorem pos_read_le_size (hpos : c.pos ≤ c.line.size) :
    (c.read g mode).2.pos ≤ c.line.size :=
  ((g.table mode).isBest_bestMatch c.line.bytes c.pos).stop_le_size hpos

theorem isFallback_read_of_size_le (hpos : c.pos = c.line.size) :
    (c.read g mode).1.isFallback = true := by
  rw [← Bool.not_eq_false, isFallback_read_eq_false_iff, Nat.not_lt, hpos]
  exact pos_read_le_size g mode (Nat.le_of_eq hpos)

theorem next_of_isFallback (h : (c.read g mode).1.isFallback = true) :
    c.next g mode = (none, c) := by
  simp [next, h, read_of_isFallback h]

theorem next_of_not_isFallback (h : (c.read g mode).1.isFallback = false) :
    c.next g mode = (some (c.read g mode).1, (c.read g mode).2) := by
  simp [next, h]

/-! ### Runs of tokens -/

theorem Lexes.trans (h : c.Lexes g mode tokens d) (h' : d.Lexes g mode more e) :
    c.Lexes g mode (tokens ++ more) e := by
  induction h with
  | done c => exact h'
  | read hread hwidth _ ih => exact Lexes.read hread hwidth (ih h')

/-- A match of some width is a run of one token. -/
theorem lexes_of_bestMatch {line : Line} {i j : Nat} {u : Terminal}
    (h : (g.table mode).bestMatch line.bytes i = ⟨u, j⟩) (hij : i < j) :
    Lexes g mode ⟨line, i⟩ [⟨u, ⟨i, j⟩⟩] ⟨line, j⟩ := by
  have hread : (⟨line, i⟩ : Cursor).read g mode = (⟨u, ⟨i, j⟩⟩, ⟨line, j⟩) := by
    simp only [read, h]
  exact .read hread (decide_eq_false (Nat.not_le.2 hij)) (.done _)

theorem Lexes.line_eq (h : c.Lexes g mode tokens d) : d.line = c.line := by
  induction h with
  | done c => rfl
  | read hread _ _ ih =>
    obtain ⟨-, rfl⟩ := Prod.mk.inj hread
    exact ih

theorem Lexes.pos_le_size (h : c.Lexes g mode tokens d) (hpos : c.pos ≤ c.line.size) :
    d.pos ≤ d.line.size := by
  induction h with
  | done c => exact hpos
  | read hread _ _ ih =>
    obtain ⟨-, rfl⟩ := Prod.mk.inj hread
    exact ih (pos_read_le_size g mode hpos)

/-- Each token of a run is the match at its place. -/
theorem Lexes.bestMatch_of_mem (h : c.Lexes g mode tokens d) (hpos : c.pos ≤ c.line.size) :
    ∀ t ∈ tokens, t.span.start ≤ c.line.size ∧
      (g.table mode).bestMatch c.line.bytes t.span.start = ⟨t.terminal, t.span.stop⟩ := by
  induction h with
  | done c => simp
  | @read c c' d t tokens hread _ _ ih =>
    have hle := pos_read_le_size g mode hpos
    obtain ⟨rfl, rfl⟩ := Prod.mk.inj hread
    exact List.forall_mem_cons.2 ⟨⟨hpos, rfl⟩, ih hle⟩

theorem Lexes.tokenAt_of_mem (h : c.Lexes g mode tokens d) (hpos : c.pos ≤ c.line.size) :
    ∀ t ∈ tokens, g.tokenAt mode c.line t.span.start = .ok ⟨t.terminal, t.span.stop⟩ := by
  intro t ht
  obtain ⟨hstart, hmatch⟩ := h.bestMatch_of_mem hpos t ht
  rw [Grammar.tokenAt_eq_ok g mode hstart, hmatch]

/-- The tokens of a run tile what it leads over. -/
theorem Lexes.tiles (h : c.Lexes g mode tokens d) :
    Span.Tiles (tokens.map Token.span) c.pos d.pos := by
  induction h with
  | done c => rfl
  | @read c c' d t tokens hread hwidth _ ih =>
    have hlt : c.pos < (c.read g mode).2.pos :=
      isFallback_read_eq_false_iff.1 (by rw [hread, hwidth])
    obtain ⟨rfl, rfl⟩ := Prod.mk.inj hread
    exact ⟨rfl, hlt, ih⟩

theorem Lexes.not_isFallback (h : c.Lexes g mode tokens d) :
    ∀ t ∈ tokens, t.isFallback = false := by
  induction h with
  | done c => simp
  | read _ hwidth _ ih => exact List.forall_mem_cons.2 ⟨hwidth, ih⟩

/-- What holds of two reads in a row holds of neighbouring tokens of a run. -/
theorem Lexes.isChain (h : c.Lexes g mode tokens d) {R : Token → Token → Prop}
    (hR : ∀ c : Cursor, R (c.read g mode).1 ((c.read g mode).2.read g mode).1) :
    tokens.IsChain R := by
  induction h with
  | done c => exact .nil
  | @read c c' d t tokens hread _ hrest ih =>
    have hpair := hR c
    rw [hread] at hpair
    cases hrest with
    | done => exact .singleton t
    | read hread' _ _ =>
      rw [hread'] at hpair
      exact .cons_cons hpair ih

/-- Two runs that go on as long as the tokens are of some kind are the same. -/
theorem Lexes.unique_of_forall (h : c.Lexes g mode tokens d) (h' : c.Lexes g mode more e)
    {P : Token → Prop} (hP : ∀ t ∈ tokens, P t) (hP' : ∀ t ∈ more, P t)
    (hd : ¬ P (d.read g mode).1) (he : ¬ P (e.read g mode).1) : tokens = more ∧ d = e := by
  induction h generalizing more with
  | done c =>
    cases h' with
    | done => exact ⟨rfl, rfl⟩
    | read hread _ _ =>
      rw [hread] at hd
      exact absurd (hP' _ List.mem_cons_self) hd
  | read hread _ _ ih =>
    obtain ⟨ht, hP⟩ := List.forall_mem_cons.1 hP
    cases h' with
    | done =>
      rw [hread] at he
      exact absurd ht he
    | read hread' _ hrest' =>
      cases hread.symm.trans hread'
      obtain ⟨rfl, rfl⟩ := ih hrest' hP (List.forall_mem_cons.1 hP').2 hd
      exact ⟨rfl, rfl⟩

/-- Two runs that end at a fallback are the same. -/
theorem Lexes.unique (h : c.Lexes g mode tokens d) (h' : c.Lexes g mode more e)
    (hd : (d.read g mode).1.isFallback = true) (he : (e.read g mode).1.isFallback = true) :
    tokens = more ∧ d = e := by
  apply h.unique_of_forall h' h.not_isFallback h'.not_isFallback
  · simp [hd]
  · simp [he]

theorem tokens_go_of_isFallback {room : Nat} (h : (c.read g mode).1.isFallback = true) :
    Cursor.tokens.go g mode room c = ([], c) := by
  cases room with
  | zero => rfl
  | succ room => simp [Cursor.tokens.go, next_of_isFallback h]

theorem tokens_go_succ {room : Nat} (h : (c.read g mode).1.isFallback = false) :
    Cursor.tokens.go g mode (room + 1) c =
      ((c.read g mode).1 :: (Cursor.tokens.go g mode room (c.read g mode).2).1,
        (Cursor.tokens.go g mode room (c.read g mode).2).2) := by
  simp [Cursor.tokens.go, next_of_not_isFallback h]

/-- There is room for every token, since each takes a byte. -/
theorem lexes_tokens_go {room : Nat} (hpos : c.pos ≤ c.line.size)
    (hroom : c.line.size ≤ c.pos + room) :
    c.Lexes g mode (Cursor.tokens.go g mode room c).1 (Cursor.tokens.go g mode room c).2 ∧
      ((Cursor.tokens.go g mode room c).2.read g mode).1.isFallback = true := by
  induction room generalizing c with
  | zero =>
    have hend : c.pos = c.line.size := Nat.le_antisymm hpos hroom
    exact ⟨Lexes.done c, isFallback_read_of_size_le hend⟩
  | succ room ih =>
    cases hwidth : (c.read g mode).1.isFallback with
    | true =>
      rw [tokens_go_of_isFallback hwidth]
      exact ⟨Lexes.done c, hwidth⟩
    | false =>
      have hlt := isFallback_read_eq_false_iff.1 hwidth
      have hroom' : (c.read g mode).2.line.size ≤ (c.read g mode).2.pos + room := by
        have hline : (c.read g mode).2.line = c.line := rfl
        rw [hline]
        omega
      have hrest := ih (pos_read_le_size g mode hpos) hroom'
      rw [tokens_go_succ hwidth]
      exact ⟨Lexes.read rfl hwidth hrest.1, hrest.2⟩

variable (g mode) in
theorem lexes_tokens (hpos : c.pos ≤ c.line.size) :
    c.Lexes g mode (c.tokens g mode).1 (c.tokens g mode).2 ∧
      ((c.tokens g mode).2.read g mode).1.isFallback = true :=
  lexes_tokens_go hpos (by omega)

theorem tokens_eq_iff (hpos : c.pos ≤ c.line.size) :
    c.tokens g mode = (tokens, d) ↔
      c.Lexes g mode tokens d ∧ (d.read g mode).1.isFallback = true := by
  obtain ⟨hlexes, hfallback⟩ := lexes_tokens g mode hpos
  constructor
  · intro h
    rw [h] at hlexes hfallback
    exact ⟨hlexes, hfallback⟩
  · rintro ⟨h, hd⟩
    obtain ⟨heq, hend⟩ := hlexes.unique h hfallback hd
    exact Prod.ext heq hend

/-! ### More bytes around the line -/

/-- The cursor in the line with more bytes before it. -/
def prepend (before : Bytes) (c : Cursor) : Cursor :=
  ⟨⟨before ++ c.line.bytes⟩, before.size + c.pos⟩

/-- The cursor in the line with more bytes behind it. -/
def append (c : Cursor) (after : Bytes) : Cursor :=
  ⟨⟨c.line.bytes ++ after⟩, c.pos⟩

variable (g mode) in
theorem read_prepend (before : Bytes) (hpos : c.pos ≤ c.line.size) :
    (c.prepend before).read g mode =
      ((c.read g mode).1.shift before.size, (c.read g mode).2.prepend before) := by
  have hsize : c.pos ≤ c.line.bytes.size := hpos
  have hmatch := (g.table mode).bestMatch_append before hsize
  unfold read prepend
  simp only [hmatch]
  rfl

theorem Lexes.prepend (h : c.Lexes g mode tokens d) (before : Bytes)
    (hpos : c.pos ≤ c.line.size) :
    (c.prepend before).Lexes g mode (tokens.map (Token.shift before.size)) (d.prepend before) := by
  induction h with
  | done c => exact Lexes.done _
  | @read c c' d t tokens hread hwidth _ ih =>
    have hread' := read_prepend g mode before hpos
    rw [hread] at hread'
    refine Lexes.read hread' ((t.isFallback_shift _).trans hwidth) (ih ?_)
    obtain ⟨-, rfl⟩ := Prod.mk.inj hread
    exact pos_read_le_size g mode hpos

theorem read_append (after : Bytes) (hpos : c.pos ≤ c.line.size)
    (hstop : ((g.table mode).bestMatch (c.line.bytes ++ after) c.pos).stop ≤ c.line.size) :
    (c.append after).read g mode = ((c.read g mode).1, (c.read g mode).2.append after) := by
  have hsize : c.pos ≤ (c.line.bytes ++ after).size := by
    rw [Array.size_append]
    exact Nat.le_trans hpos (Nat.le_add_right _ _)
  have hview : (c.line.bytes ++ after).take c.line.size = c.line.bytes := by
    rw [← Array.toList_inj, Bytes.toList_take, Array.toList_append, Line.size,
      ← Array.length_toList, List.take_left]
  have hmatch := (g.table mode).bestMatch_take hsize hpos hstop
  rw [hview] at hmatch
  unfold read append
  simp only [← hmatch]

theorem Lexes.append (h : c.Lexes g mode tokens d) (after : Bytes) (hpos : c.pos ≤ c.line.size)
    (hstop : ∀ i < c.line.size,
      ((g.table mode).bestMatch (c.line.bytes ++ after) i).stop ≤ c.line.size) :
    (c.append after).Lexes g mode tokens (d.append after) := by
  induction h with
  | done c => exact Lexes.done _
  | @read c c' d t tokens hread hwidth _ ih =>
    have hle := pos_read_le_size g mode hpos
    have hlt : c.pos < (c.read g mode).2.pos :=
      isFallback_read_eq_false_iff.1 (by rw [hread, hwidth])
    have hread' := read_append after hpos (hstop c.pos (Nat.lt_of_lt_of_le hlt hle))
    rw [hread] at hread'
    obtain ⟨-, rfl⟩ := Prod.mk.inj hread
    exact Lexes.read hread' hwidth (ih hle hstop)

end Cursor

end ShellTokens
