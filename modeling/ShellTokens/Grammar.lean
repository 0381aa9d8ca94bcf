import ShellTokens.Mode
import ShellTokens.Table

/-!
# Grammars

A grammar has one table for each mode, and no rule in it is barren, so that a match of no width
always means the fallback. A grammar is built from a list of registrations or refused with the first
fault: a mode registered twice, and then, in the order of modes, a mode without a table or with a
barren rule.
-/

namespace ShellTokens

inductive GrammarError where
  | missingMode (mode : Mode)
  | duplicateMode (mode : Mode)
  /-- The rule with this index can never match a byte. -/
  | neverMatches (mode : Mode) (index : Nat) (terminal : Terminal)
deriving DecidableEq, Repr

namespace GrammarError

def message : GrammarError → String
  | missingMode mode => s!"no rule table registered for mode {mode.name}"
  | duplicateMode mode => s!"rule table for mode {mode.name} registered more than once"
  | neverMatches mode index terminal =>
    s!"rule #{index} ({terminal.name}) in mode {mode.name} can never match a non-empty prefix"

end GrammarError

structure Grammar where
  table : Mode → Table
  /-- Every rule can match some byte. -/
  firstBarren?_eq_none : ∀ mode, (table mode).firstBarren? = none

namespace Grammar

/-- The number of rules of all modes. -/
def ruleCount (g : Grammar) : Nat :=
  (Mode.all.flatMap fun mode => (g.table mode).rules).length

/-! ### Registration -/

/-- A list of registrations, in the order in which they were made. -/
abbrev Registrations := List (Mode × Table)

namespace Registrations

/-- The first mode that has been registered before. -/
def duplicate? : Registrations → List Mode → Option Mode
  | [], _ => none
  | (mode, _) :: rest, before =>
    if mode ∈ before then some mode else duplicate? rest (mode :: before)

theorem duplicate?_eq_none_iff {entries : Registrations} {before : List Mode} :
    entries.duplicate? before = none ↔
      (entries.map Prod.fst).Nodup ∧ ∀ mode ∈ before, mode ∉ entries.map Prod.fst := by
  induction entries generalizing before with
  | nil => simp [duplicate?]
  | cons entry entries ih =>
    obtain ⟨mode, table⟩ := entry
    rw [duplicate?]
    split
    · next h => exact ⟨nofun, fun hnone => absurd List.mem_cons_self (hnone.2 mode h)⟩
    · next h =>
      rw [ih]
      simp only [List.map_cons, List.nodup_cons, List.mem_cons, not_or, forall_eq_or_imp]
      exact ⟨fun ⟨hnodup, hmode, hbefore⟩ =>
          ⟨⟨hmode, hnodup⟩, fun m hm => ⟨fun heq => h (heq ▸ hm), hbefore m hm⟩⟩,
        fun ⟨⟨hmode, hnodup⟩, hbefore⟩ => ⟨hnodup, hmode, fun m hm => (hbefore m hm).2⟩⟩

def table? (entries : Registrations) (mode : Mode) : Option Table :=
  entries.lookup mode

/-- What is wrong with the registration of one mode. -/
def fault? (entries : Registrations) (mode : Mode) : Option GrammarError :=
  match entries.table? mode with
  | none => some (.missingMode mode)
  | some table =>
    match table.firstBarren? with
    | some (index, rule) => some (.neverMatches mode index rule.terminal)
    | none => none

theorem firstBarren?_getD {entries : Registrations} {mode : Mode} (t : Table)
    (h : entries.fault? mode = none) : ((entries.table? mode).getD t).firstBarren? = none := by
  unfold fault? at h
  split at h
  · contradiction
  · next table htable =>
    split at h
    · contradiction
    · next hbarren => simp [htable, hbarren]

end Registrations

/-- The grammar of the registrations, or what is wrong with them. -/
def build (entries : Registrations) : Except GrammarError Grammar :=
  match entries.duplicate? [] with
  | some mode => .error (.duplicateMode mode)
  | none =>
    match h : Mode.all.findSome? entries.fault? with
    | some fault => .error fault
    | none =>
      .ok {
        table := fun mode => (entries.table? mode).getD ⟨[], .eolTok⟩
        firstBarren?_eq_none := fun mode =>
          Registrations.firstBarren?_getD _ (List.findSome?_eq_none_iff.1 h mode mode.mem_all) }

/-! ### Queries -/

/-- The token from `start` in the first `len` bytes of the buffer. -/
def matchAt (g : Grammar) (mode : Mode) (buffer : Bytes) (len start : Nat) :
    Except MatchError Match :=
  if buffer.size < len then .error (.lengthExceedsBuffer len buffer.size)
  else if len < start then .error (.startOutOfRange start len)
  else .ok ((g.table mode).bestMatch (buffer.take len) start)

/-- The same query for a mode given by its tag and a position that may be negative. -/
def matchTagged (g : Grammar) (tag : UInt8) (buffer : Bytes) (len : Nat) (start : Int) :
    Except MatchError Match := do
  let mode ← Mode.ofTag tag
  if start < 0 then throw (.negativeStart start)
  g.matchAt mode buffer len start.toNat

end Grammar

end ShellTokens
