import Mathlib.Algebra.GroupWithZero.Nat
import ShellTokens.Proofs.Grammar.BarrenRules
import ShellTokens.Proofs.Grammar.Queries

/-!
# What registrations come to

Tables can be registered in any order, with several faults at once. One of them is reported: the
first mode that is registered again, or else, in the order of modes, the first one without a table
or with a barren rule. Without faults the grammar has the registered tables. The order of the
registrations has a part in this only if a mode is registered twice.
-/

namespace ShellTokens

namespace Grammar

variable {entries entries' : Registrations} {mode : Mode} {t : Table} {e : GrammarError}
  {seen : List Mode} {g : Grammar}

namespace Registrations

/-! ### Modes that are registered again -/

/-- The first mode that is registered again. -/
def FirstRepeated (entries : Registrations) (mode : Mode) : Prop :=
  ∃ before t after, entries = before ++ (mode, t) :: after ∧ (before.map Prod.fst).Nodup ∧
    mode ∈ before.map Prod.fst

theorem duplicate?_eq_some_iff :
    entries.duplicate? seen = some mode ↔
      ∃ before t after, entries = before ++ (mode, t) :: after ∧
        duplicate? before seen = none ∧ (mode ∈ seen ∨ mode ∈ before.map Prod.fst) := by
  induction entries generalizing seen with
  | nil => simp [duplicate?]
  | cons entry rest ih =>
    obtain ⟨m, t⟩ := entry
    rw [duplicate?]
    by_cases hseen : m ∈ seen
    · rw [if_pos hseen, Option.some_inj]
      constructor
      · rintro rfl
        exact ⟨[], t, rest, rfl, rfl, Or.inl hseen⟩
      · rintro ⟨before, u, after, hentries, hnone, _⟩
        cases before with
        | nil => exact (Prod.mk.inj (List.cons.inj hentries).1).1
        | cons entry before =>
          obtain ⟨rfl, _⟩ := List.cons.inj hentries
          simp [duplicate?, hseen] at hnone
    · rw [if_neg hseen, ih]
      constructor
      · rintro ⟨before, u, after, rfl, hnone, hmode⟩
        refine ⟨(m, t) :: before, u, after, rfl, by simpa [duplicate?, hseen] using hnone, ?_⟩
        simpa [or_assoc, or_left_comm] using hmode
      · rintro ⟨before, u, after, hentries, hnone, hmode⟩
        cases before with
        | nil =>
          obtain ⟨rfl, _⟩ := Prod.mk.inj (List.cons.inj hentries).1
          simp [hseen] at hmode
        | cons entry before =>
          obtain ⟨rfl, rfl⟩ := List.cons.inj hentries
          refine ⟨before, u, after, rfl, by simpa [duplicate?, hseen] using hnone, ?_⟩
          simpa [or_assoc, or_left_comm] using hmode

theorem duplicate?_nil_eq_some_iff :
    entries.duplicate? [] = some mode ↔ entries.FirstRepeated mode := by
  simp [duplicate?_eq_some_iff, duplicate?_eq_none_iff, FirstRepeated]

theorem FirstRepeated.two_le_count (h : entries.FirstRepeated mode) :
    2 ≤ (entries.map Prod.fst).count mode := by
  obtain ⟨before, t, after, rfl, _, hmem⟩ := h
  have hpos := List.count_pos_iff.2 hmem
  simp only [List.map_append, List.map_cons, List.count_append, List.count_cons_self]
  omega

theorem FirstRepeated.not_nodup (h : entries.FirstRepeated mode) :
    ¬ (entries.map Prod.fst).Nodup :=
  fun hnodup => absurd (List.nodup_iff_count_le_one.1 hnodup mode) (Nat.not_le.2 h.two_le_count)

theorem exists_firstRepeated (h : ¬ (entries.map Prod.fst).Nodup) :
    ∃ mode, entries.FirstRepeated mode := by
  simp only [← duplicate?_nil_eq_some_iff, ← Option.ne_none_iff_exists', ne_eq,
    duplicate?_eq_none_iff]
  exact fun hnone => h hnone.1

/-! ### Faults of one mode -/

/-- The mode has a table, and each rule of it begins with some byte. -/
def Sound (entries : Registrations) (mode : Mode) : Prop :=
  ∃ t, (mode, t) ∈ entries ∧ ∀ r ∈ t.rules, r.pattern.firstBytes.isEmpty = false

/-- What is wrong with the registration of a mode. Of several barren rules the first is named. -/
inductive Faulty (entries : Registrations) (mode : Mode) : GrammarError → Prop
  | missing (hnone : mode ∉ entries.map Prod.fst) : Faulty entries mode (.missingMode mode)
  | barren {t : Table} {k : Nat} {r : Rule} (ht : (mode, t) ∈ entries)
      (hr : t.rules[k]? = some r) (hbarren : r.pattern.firstBytes.isEmpty = true)
      (hfirst : ∀ j < k, ∀ q, t.rules[j]? = some q → q.pattern.firstBytes.isEmpty = false) :
      Faulty entries mode (.neverMatches mode k r.terminal)

theorem fault?_eq_some_iff (hnodup : (entries.map Prod.fst).Nodup) :
    entries.fault? mode = some e ↔ entries.Faulty mode e := by
  unfold fault?
  constructor
  · intro h
    split at h
    · next hnone =>
      cases h
      exact .missing (table?_eq_none_iff.1 hnone)
    · next t ht =>
      split at h
      · next k r hbarren =>
        cases h
        obtain ⟨hr, hbarren, hfirst⟩ := Table.firstBarren?_eq_some_iff.1 hbarren
        simp only [Rule.barren_eq] at hbarren hfirst
        exact .barren (mem_of_table?_eq_some ht) hr hbarren hfirst
      · contradiction
  · intro h
    cases h with
    | missing hnone => simp [table?_eq_none_iff.2 hnone]
    | barren ht hr hbarren hfirst =>
      simp only [← Rule.barren_eq] at hbarren hfirst
      simp [(table?_eq_some_iff hnodup).2 ht,
        Table.firstBarren?_eq_some_iff.2 ⟨hr, hbarren, hfirst⟩]

theorem fault?_eq_none_iff (hnodup : (entries.map Prod.fst).Nodup) :
    entries.fault? mode = none ↔ entries.Sound mode := by
  unfold fault? Sound
  simp only [← Rule.barren_eq, ← table?_eq_some_iff hnodup, ← Table.firstBarren?_eq_none_iff]
  cases entries.table? mode with
  | none => simp
  | some t => cases h : t.firstBarren? <;> simp [h]

theorem Faulty.not_sound (hnodup : (entries.map Prod.fst).Nodup)
    (hmode : entries.Faulty mode e) : ¬ entries.Sound mode := by
  rw [← fault?_eq_none_iff hnodup, (fault?_eq_some_iff hnodup).2 hmode]
  exact Option.some_ne_none e

/-- What registrations come to, fault by fault. -/
inductive Outcome (entries : Registrations) : Except GrammarError Grammar → Prop
  | repeated {mode : Mode} (h : entries.FirstRepeated mode) :
      Outcome entries (.error (.duplicateMode mode))
  | faulty {before after : List Mode} {mode : Mode} {e : GrammarError}
      (hnodup : (entries.map Prod.fst).Nodup) (hall : Mode.all = before ++ mode :: after)
      (hbefore : ∀ m ∈ before, entries.Sound m) (hmode : entries.Faulty mode e) :
      Outcome entries (.error e)
  | built {g : Grammar} (hnodup : (entries.map Prod.fst).Nodup)
      (htable : ∀ mode, (mode, g.table mode) ∈ entries)
      (hcount : g.ruleCount = (entries.map fun entry => entry.2.size).sum) :
      Outcome entries (.ok g)

end Registrations

/-! ### Building -/

open Registrations

theorem build_of_duplicate? (h : entries.duplicate? [] = some mode) :
    build entries = .error (.duplicateMode mode) := by
  unfold build
  rw [h]

theorem build_eq_error_iff_of_nodup (hnodup : (entries.map Prod.fst).Nodup) :
    build entries = .error e ↔ ∃ before mode after, Mode.all = before ++ mode :: after ∧
      entries.Faulty mode e ∧ ∀ m ∈ before, entries.Sound m := by
  have hnone : entries.duplicate? [] = none := duplicate?_eq_none_iff.2 ⟨hnodup, by simp⟩
  simp only [build_eq_error_iff hnone, List.findSome?_eq_some_iff, fault?_eq_some_iff hnodup,
    fault?_eq_none_iff hnodup]

theorem mem_of_build_eq_ok (h : build entries = .ok g) :
    (entries.map Prod.fst).Nodup ∧ ∀ mode, (mode, g.table mode) ∈ entries := by
  cases hdup : entries.duplicate? [] with
  | some m =>
    rw [build_of_duplicate? hdup] at h
    contradiction
  | none =>
    have hnodup := (duplicate?_eq_none_iff.1 hdup).1
    refine ⟨hnodup, fun mode => ?_⟩
    unfold build at h
    rw [hdup] at h
    dsimp only at h
    split at h
    · contradiction
    · next hnone =>
      cases h
      have hmode := List.findSome?_eq_none_iff.1 hnone mode mode.mem_all
      obtain ⟨t, ht, _⟩ := (fault?_eq_none_iff hnodup).1 hmode
      simpa [(table?_eq_some_iff hnodup).2 ht] using ht

theorem eq_of_table_eq {g g' : Grammar} (h : ∀ mode, g.table mode = g'.table mode) : g = g' := by
  obtain ⟨table, hbarren⟩ := g
  obtain ⟨table', hbarren'⟩ := g'
  obtain rfl : table = table' := funext h
  rfl

/-- A table of a grammar has no barren rule, so its mode is registered without fault. -/
theorem sound_of_mem (g : Grammar) (h : (mode, g.table mode) ∈ entries) : entries.Sound mode := by
  have hnone := Table.firstBarren?_eq_none_iff.1 (g.firstBarren?_eq_none mode)
  simp only [Rule.barren_eq] at hnone
  exact ⟨_, h, hnone⟩

theorem exists_build_eq_ok_iff :
    (∃ g, build entries = .ok g) ↔
      (entries.map Prod.fst).Nodup ∧ ∀ mode, entries.Sound mode := by
  constructor
  · rintro ⟨g, hbuild⟩
    obtain ⟨hnodup, htable⟩ := mem_of_build_eq_ok hbuild
    exact ⟨hnodup, fun mode => sound_of_mem g (htable mode)⟩
  · rintro ⟨hnodup, hsound⟩
    cases hbuild : build entries with
    | error e =>
      obtain ⟨_, mode, _, _, hmode, _⟩ := (build_eq_error_iff_of_nodup hnodup).1 hbuild
      exact absurd (hsound mode) (hmode.not_sound hnodup)
    | ok g => exact ⟨g, rfl⟩

theorem build_eq_ok_iff :
    build entries = .ok g ↔
      (entries.map Prod.fst).Nodup ∧ ∀ mode, (mode, g.table mode) ∈ entries := by
  refine ⟨mem_of_build_eq_ok, ?_⟩
  rintro ⟨hnodup, htable⟩
  obtain ⟨g', hbuild⟩ :=
    exists_build_eq_ok_iff.2 ⟨hnodup, fun mode => sound_of_mem g (htable mode)⟩
  have hsame : ∀ mode, g'.table mode = g.table mode := by
    intro mode
    have hmem := (mem_of_build_eq_ok hbuild).2 mode
    exact (Prod.mk.inj (List.inj_on_of_nodup_map hnodup hmem (htable mode) rfl)).2
  rw [hbuild, eq_of_table_eq hsame]

/-- Each mode is registered once, so the rules of the grammar are those of all registrations. -/
theorem ruleCount_eq_sum (hnodup : (entries.map Prod.fst).Nodup)
    (htable : ∀ mode, (mode, g.table mode) ∈ entries) :
    g.ruleCount = (entries.map fun entry => entry.2.size).sum := by
  have hinj : Function.Injective fun mode => (mode, g.table mode) :=
    fun _ _ h => (Prod.mk.inj h).1
  have hperm : entries.Perm (Mode.all.map fun mode => (mode, g.table mode)) := by
    rw [List.perm_ext_iff_of_nodup hnodup.of_map (Mode.nodup_all.map hinj)]
    rintro ⟨mode, t⟩
    constructor
    · intro h
      have heq := List.inj_on_of_nodup_map hnodup h (htable mode) rfl
      exact List.mem_map.2 ⟨mode, mode.mem_all, heq.symm⟩
    · intro h
      obtain ⟨m, _, heq⟩ := List.mem_map.1 h
      exact heq ▸ htable m
  calc g.ruleCount
      = ((Mode.all.map fun mode => (mode, g.table mode)).map fun entry => entry.2.size).sum := by
        rw [ruleCount, List.length_flatMap, List.map_map]
        rfl
    _ = (entries.map fun entry => entry.2.size).sum := (hperm.symm.map _).sum_nat

theorem outcome_build (entries : Registrations) : entries.Outcome (build entries) := by
  cases hdup : entries.duplicate? [] with
  | some mode =>
    rw [build_of_duplicate? hdup]
    exact .repeated (duplicate?_nil_eq_some_iff.1 hdup)
  | none =>
    have hnodup := (duplicate?_eq_none_iff.1 hdup).1
    cases hbuild : build entries with
    | error e =>
      obtain ⟨_, _, _, hall, hmode, hbefore⟩ := (build_eq_error_iff_of_nodup hnodup).1 hbuild
      exact .faulty hnodup hall hbefore hmode
    | ok g =>
      have htable := (mem_of_build_eq_ok hbuild).2
      exact .built hnodup htable (ruleCount_eq_sum hnodup htable)

/-- Only what is built is an outcome. -/
theorem build_eq_of_outcome {result : Except GrammarError Grammar}
    (h : entries.Outcome result) : build entries = result := by
  cases h with
  | repeated h => exact build_of_duplicate? (duplicate?_nil_eq_some_iff.2 h)
  | faulty hnodup hall hbefore hmode =>
    exact (build_eq_error_iff_of_nodup hnodup).2 ⟨_, _, _, hall, hmode, hbefore⟩
  | built hnodup htable _ => exact build_eq_ok_iff.2 ⟨hnodup, htable⟩

theorem exists_build_duplicateMode_iff :
    (∃ mode, build entries = .error (.duplicateMode mode)) ↔
      ∃ mode, 2 ≤ (entries.map Prod.fst).count mode := by
  constructor
  · rintro ⟨mode, hbuild⟩
    have houtcome := outcome_build entries
    rw [hbuild] at houtcome
    cases houtcome with
    | repeated h => exact ⟨mode, h.two_le_count⟩
    | faulty _ _ _ hmode => cases hmode
  · rintro ⟨mode, hcount⟩
    have hnot : ¬ (entries.map Prod.fst).Nodup := by
      intro hnodup
      have := List.nodup_iff_count_le_one.1 hnodup mode
      omega
    obtain ⟨m, hm⟩ := exists_firstRepeated hnot
    exact ⟨m, build_eq_of_outcome (.repeated hm)⟩

/-! ### The order of registrations -/

namespace Registrations

theorem Sound.perm (h : entries.Perm entries') (hmode : entries.Sound mode) :
    entries'.Sound mode := by
  obtain ⟨t, ht, hrules⟩ := hmode
  exact ⟨t, h.subset ht, hrules⟩

theorem Faulty.perm (h : entries.Perm entries') (hmode : entries.Faulty mode e) :
    entries'.Faulty mode e := by
  cases hmode with
  | missing hnone => exact .missing fun hmem => hnone ((h.map Prod.fst).symm.subset hmem)
  | barren ht hr hbarren hfirst => exact .barren (h.subset ht) hr hbarren hfirst

/-- Where no mode is registered twice, the outcome does not depend on the order. -/
theorem Outcome.perm (h : entries.Perm entries') (hnodup : (entries.map Prod.fst).Nodup)
    {result : Except GrammarError Grammar} (houtcome : entries.Outcome result) :
    entries'.Outcome result := by
  have hnodup' := (h.map Prod.fst).nodup hnodup
  cases houtcome with
  | repeated hrepeated => exact absurd hnodup hrepeated.not_nodup
  | faulty _ hall hbefore hmode =>
    exact .faulty hnodup' hall (fun m hm => (hbefore m hm).perm h) (hmode.perm h)
  | built _ htable hcount =>
    refine .built hnodup' (fun mode => h.subset (htable mode)) ?_
    rw [hcount, (h.map fun entry => entry.2.size).sum_nat]

end Registrations

/-- Any registrations come to exactly one outcome. A mode is reported as registered twice if and
only if there is such a mode, and a grammar is built if and only if each mode is registered once and
has no barren rule. Where no mode is registered twice, the order of the registrations has no part in
this. -/
theorem build_outcome (entries : Registrations) :
    (∀ result, build entries = result ↔ entries.Outcome result) ∧
    ((∃ mode, build entries = .error (.duplicateMode mode)) ↔
      ∃ mode, 2 ≤ (entries.map Prod.fst).count mode) ∧
    ((∃ g, build entries = .ok g) ↔
      (entries.map Prod.fst).Nodup ∧ ∀ mode, entries.Sound mode) ∧
    ((entries.map Prod.fst).Nodup →
      ∀ entries', entries.Perm entries' → build entries' = build entries) := by
  refine ⟨fun result => ⟨?_, build_eq_of_outcome⟩, exists_build_duplicateMode_iff,
    exists_build_eq_ok_iff, ?_⟩
  · rintro rfl
    exact outcome_build entries
  · intro hnodup entries' hperm
    exact build_eq_of_outcome ((outcome_build entries).perm hperm hnodup)

/-- A barren rule in one mode, an empty table for another one, and no other tables. -/
def commentThenCommand : Registrations :=
  [(.comment, ⟨[], .eolTok⟩), (.command, ⟨[Shell.rule (.oneOf ∅) .litOther], .eolTok⟩)]

/-- In either order the barren rule is reported, since its mode comes before those that are
missing. -/
theorem build_outcome_barren :
    (commentThenCommand.map Prod.fst).Nodup ∧
      build commentThenCommand = .error (.neverMatches .command 0 .litOther) ∧
      build commentThenCommand.reverse = .error (.neverMatches .command 0 .litOther) := by
  have hnodup : (commentThenCommand.map Prod.fst).Nodup := by decide
  have hfaulty : commentThenCommand.Faulty .command (.neverMatches .command 0 .litOther) :=
    .barren (t := ⟨[Shell.rule (.oneOf ∅) .litOther], .eolTok⟩) (k := 0)
      (List.mem_cons_of_mem _ (List.mem_singleton_self _)) rfl (by decide) nofun
  have hall : Mode.all = [] ++ .command :: Mode.all.tail := rfl
  obtain ⟨houtcome, _, _, hperm⟩ := build_outcome commentThenCommand
  have hbuild := (houtcome _).2 (.faulty hnodup hall nofun hfaulty)
  exact ⟨hnodup, hbuild, (hperm hnodup _ (List.reverse_perm _).symm).trans hbuild⟩

end Grammar

end ShellTokens
