import Mathlib.Logic.Relation
import Mathlib.Order.Bounds.Defs
import ShellTokens.Proofs.Cursor.Requests

/-!
# Iterating over a line

An iteration in one mode goes from token to token as the queries at their places tell, whatever the
tables are. It ends at the first place on this way where the query finds nothing of any width, and
there it stays. As each token takes a byte, there are no more of them than bytes.
-/

namespace ShellTokens

variable {g : Grammar} {mode : Mode} {c d : Cursor} {tokens : List Token} {i j s : Nat}

/-- The token at position `i` of the line ends at position `j`. A fallback ends where it begins. -/
def Grammar.Leads (g : Grammar) (mode : Mode) (line : Line) (i j : Nat) : Prop :=
  ∃ terminal, g.tokenAt mode line i = .ok ⟨terminal, j⟩

namespace Cursor

/-! ### Where a read leads -/

theorem leads_iff (hpos : c.pos ≤ c.line.size) :
    g.Leads mode c.line c.pos j ↔ j = (c.read g mode).2.pos := by
  rw [Grammar.Leads, Grammar.tokenAt_eq_ok g mode hpos]
  constructor
  · rintro ⟨terminal, h⟩
    exact (congrArg Match.stop (Except.ok.inj h)).symm
  · rintro rfl
    exact ⟨_, rfl⟩

theorem leads_self_iff (hpos : c.pos ≤ c.line.size) :
    g.Leads mode c.line c.pos c.pos ↔ (c.read g mode).1.isFallback = true := by
  rw [leads_iff hpos, ← Bool.not_eq_false, isFallback_read_eq_false_iff]
  have hle : c.pos ≤ (c.read g mode).2.pos :=
    ((g.table mode).isBest_bestMatch c.line.bytes c.pos).le_stop
  omega

/-! ### Where a run leads -/

theorem Lexes.reflTransGen_leads (h : c.Lexes g mode tokens d) (hpos : c.pos ≤ c.line.size) :
    Relation.ReflTransGen (g.Leads mode c.line) c.pos d.pos := by
  induction h with
  | done c => exact Relation.ReflTransGen.refl
  | @read c c' d t tokens hread _ _ ih =>
    have hle := pos_read_le_size g mode hpos
    have hleads := (leads_iff hpos).2 (rfl : (c.read g mode).2.pos = (c.read g mode).2.pos)
    obtain ⟨-, rfl⟩ := Prod.mk.inj hread
    exact Relation.ReflTransGen.head hleads (ih hle)

/-- From a fallback the way leads nowhere else. -/
theorem eq_pos_of_isFallback (h : (c.read g mode).1.isFallback = true)
    (hpos : c.pos ≤ c.line.size) (hs : Relation.ReflTransGen (g.Leads mode c.line) c.pos s) :
    s = c.pos := by
  induction hs with
  | refl => rfl
  | tail _ hstep ih =>
    subst ih
    rw [leads_iff hpos, read_of_isFallback h] at hstep
    exact hstep

/-- The end of the tokens is the only place on the way that leads to itself. -/
theorem Lexes.eq_pos_of_leads_self (h : c.Lexes g mode tokens d)
    (hd : (d.read g mode).1.isFallback = true) (hpos : c.pos ≤ c.line.size)
    (hs : Relation.ReflTransGen (g.Leads mode c.line) c.pos s) (hself : g.Leads mode c.line s s) :
    s = d.pos := by
  induction h with
  | done c => exact eq_pos_of_isFallback hd hpos hs
  | @read c c' d t tokens hread hwidth _ ih =>
    have hle := pos_read_le_size g mode hpos
    rcases Relation.ReflTransGen.cases_head hs with rfl | ⟨j, hj, hrest⟩
    · rw [leads_self_iff hpos, hread, hwidth] at hself
      contradiction
    · rw [leads_iff hpos] at hj
      obtain ⟨-, rfl⟩ := Prod.mk.inj hread
      subst hj
      exact ih hd hle hrest hself

/-! ### Asking for the next token again and again -/

theorem serveAll_next_of_isFallback (h : (c.read g mode).1.isFallback = true) (n : Nat) :
    c.serveAll g (List.replicate n (.next mode)) = (List.replicate n (.next none), c) := by
  induction n with
  | zero => rfl
  | succ n ih => simp [List.replicate_succ, serveAll, serve, next_of_isFallback h, ih]

theorem Lexes.serveAll_next (h : c.Lexes g mode tokens d)
    (hd : (d.read g mode).1.isFallback = true) (n : Nat) :
    c.serveAll g (List.replicate (tokens.length + n) (.next mode)) =
      (tokens.map (fun t => .next (some t)) ++ List.replicate n (.next none), d) := by
  induction h with
  | done c => simpa using serveAll_next_of_isFallback hd n
  | @read c c' d t tokens hread hwidth _ ih =>
    have hwidth' : (c.read g mode).1.isFallback = false := by rw [hread, hwidth]
    have hnext := next_of_not_isFallback hwidth'
    rw [hread] at hnext
    rw [List.length_cons, Nat.succ_add, List.replicate_succ, serveAll]
    simp [serve, hnext, ih hd]

end Cursor

end ShellTokens
