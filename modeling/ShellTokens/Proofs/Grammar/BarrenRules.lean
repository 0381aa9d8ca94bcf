import ShellTokens.Grammar
import ShellTokens.Proofs.Pattern.Exactness
import ShellTokens.Shell.Rules

/-!
# Refusing barren rules

Once each mode has one table, a grammar can only be refused for a rule that begins with no byte.
Such a rule never takes a byte, so the refusal is right. The converse needs consistent bounds: a
rule whose repetition must occur three times and may occur twice takes no byte either, but begins
with those of the repeated pattern.
-/

namespace ShellTokens

/-! ### Barren rules -/

theorem Rule.barren_eq (r : Rule) : r.barren = r.pattern.firstBytes.isEmpty := by
  rw [barren, r.first_eq]

theorem Rule.not_consumes_of_barren {r : Rule} (h : r.barren = true) : ¬ r.pattern.Consumes := by
  rw [barren_eq] at h
  exact Pattern.not_consumes_of_isEmpty_firstBytes h

theorem Rule.barren_of_not_consumes {r : Rule} (hr : r.pattern.consistent = true)
    (h : ¬ r.pattern.Consumes) : r.barren = true := by
  rw [barren_eq]
  exact (Pattern.isEmpty_firstBytes_iff hr).2 h

namespace Table

variable {t : Table} {k : Nat} {r : Rule}

/-- Of several barren rules the first one is found. -/
theorem firstBarren?_eq_some_iff :
    t.firstBarren? = some (k, r) ↔ t.rules[k]? = some r ∧ r.barren = true ∧
      ∀ j < k, ∀ q, t.rules[j]? = some q → q.barren = false := by
  have hfind : t.firstBarren? = some (k, r) ↔
      t.rules.zipIdx.find? (fun x => x.1.barren) = some (r, k) := by
    simp [firstBarren?]
  rw [hfind, List.find?_eq_some_iff_getElem]
  simp only [List.getElem_zipIdx, Prod.mk.injEq, List.length_zipIdx, Nat.zero_add,
    Bool.not_eq_true']
  constructor
  · rintro ⟨hbarren, k, hk, ⟨rfl, rfl⟩, hfirst⟩
    refine ⟨List.getElem?_eq_getElem hk, hbarren, ?_⟩
    intro j hj q hq
    obtain ⟨_, rfl⟩ := List.getElem?_eq_some_iff.1 hq
    exact hfirst j hj
  · rintro ⟨hr, hbarren, hfirst⟩
    obtain ⟨hk, rfl⟩ := List.getElem?_eq_some_iff.1 hr
    refine ⟨hbarren, k, hk, ⟨rfl, rfl⟩, ?_⟩
    exact fun j hj => hfirst j hj _ (List.getElem?_eq_getElem (hj.trans hk))

theorem firstBarren?_eq_none_iff :
    t.firstBarren? = none ↔ ∀ r ∈ t.rules, r.barren = false := by
  rw [firstBarren?, Option.map_eq_none_iff, List.find?_eq_none]
  constructor
  · intro h r hr
    obtain ⟨k, hk⟩ := List.getElem?_of_mem hr
    simpa using h (r, k) (List.mk_mem_zipIdx_iff_getElem?.2 hk)
  · intro h x hx
    simpa using h x.1 (List.fst_mem_of_mem_zipIdx hx)

theorem exists_firstBarren? (hr : r ∈ t.rules) (hbarren : r.barren = true) :
    ∃ k q, t.firstBarren? = some (k, q) := by
  cases hfirst : t.firstBarren? with
  | some found => exact ⟨found.1, found.2, rfl⟩
  | none => simp [firstBarren?_eq_none_iff.1 hfirst r hr] at hbarren

end Table

namespace Grammar

variable {entries : Registrations} {mode : Mode} {t : Table} {fault : GrammarError}

/-! ### One table for each mode -/

namespace Registrations

/-- Each mode is registered once. -/
def Complete (entries : Registrations) : Prop :=
  ∀ mode, (entries.map Prod.fst).count mode = 1

theorem Complete.nodup (h : entries.Complete) : (entries.map Prod.fst).Nodup :=
  List.nodup_iff_count_le_one.2 fun mode => Nat.le_of_eq (h mode)

theorem Complete.duplicate?_eq_none (h : entries.Complete) : entries.duplicate? [] = none :=
  duplicate?_eq_none_iff.2 ⟨h.nodup, by simp⟩

theorem mem_of_table?_eq_some (h : entries.table? mode = some t) : (mode, t) ∈ entries := by
  obtain ⟨before, after, rfl, _⟩ := List.lookup_eq_some_iff.1 h
  simp

theorem table?_eq_none_iff : entries.table? mode = none ↔ mode ∉ entries.map Prod.fst := by
  simp only [table?, List.lookup_eq_none_iff, bne_iff_ne, List.mem_map, not_exists, not_and]
  exact forall₂_congr fun _ _ => ne_comm

/-- Where no mode is registered twice, the table of a mode is the registered one. -/
theorem table?_eq_some_iff (hnodup : (entries.map Prod.fst).Nodup) :
    entries.table? mode = some t ↔ (mode, t) ∈ entries := by
  refine ⟨mem_of_table?_eq_some, fun ht => ?_⟩
  obtain ⟨u, hu⟩ : ∃ u, entries.table? mode = some u := by
    rw [← Option.ne_none_iff_exists', ne_eq, table?_eq_none_iff, not_not]
    exact List.mem_map_of_mem ht
  have heq := List.inj_on_of_nodup_map hnodup (mem_of_table?_eq_some hu) ht rfl
  rw [hu, (Prod.mk.inj heq).2]

theorem Complete.exists_table? (h : entries.Complete) (mode : Mode) :
    ∃ t, entries.table? mode = some t := by
  rw [← Option.ne_none_iff_exists', ne_eq, table?_eq_none_iff, not_not, ← List.count_pos_iff,
    h mode]
  decide

/-- With a table for each mode, what can be wrong is a barren rule. -/
theorem Complete.exists_barren_of_fault? (h : entries.Complete)
    (hfault : entries.fault? mode = some fault) :
    (∃ k u, fault = .neverMatches mode k u) ∧
      ∃ entry ∈ entries, ∃ r ∈ entry.2.rules, r.barren = true := by
  obtain ⟨t, ht⟩ := h.exists_table? mode
  unfold fault? at hfault
  rw [ht] at hfault
  cases hbarren : t.firstBarren? with
  | none => simp [hbarren] at hfault
  | some found =>
    obtain ⟨k, r⟩ := found
    simp only [hbarren, Option.some_inj] at hfault
    obtain ⟨hr, hfirst, _⟩ := Table.firstBarren?_eq_some_iff.1 hbarren
    exact ⟨⟨k, r.terminal, hfault.symm⟩, (mode, t), mem_of_table?_eq_some ht, r,
      List.mem_of_getElem? hr, hfirst⟩

theorem Complete.fault?_ne_none (h : entries.Complete) {entry : Mode × Table}
    (hentry : entry ∈ entries) {r : Rule} (hr : r ∈ entry.2.rules) (hbarren : r.barren = true) :
    entries.fault? entry.1 ≠ none := by
  obtain ⟨k, q, hfirst⟩ := Table.exists_firstBarren? hr hbarren
  unfold fault?
  simp [(table?_eq_some_iff h.nodup).2 hentry, hfirst]

end Registrations

theorem build_eq_error_iff (h : entries.duplicate? [] = none) :
    build entries = .error fault ↔ Mode.all.findSome? entries.fault? = some fault := by
  unfold build
  rw [h]
  dsimp only
  split
  · next e he => simp [he]
  · next hnone => simp [hnone]

theorem build_neverMatches_iff_barren (h : entries.Complete) :
    (∃ mode k u, build entries = .error (.neverMatches mode k u)) ↔
      ∃ entry ∈ entries, ∃ r ∈ entry.2.rules, r.barren = true := by
  simp only [build_eq_error_iff h.duplicate?_eq_none]
  constructor
  · rintro ⟨mode, k, u, hfault⟩
    obtain ⟨m, _, hm⟩ := List.exists_of_findSome?_eq_some hfault
    exact (h.exists_barren_of_fault? hm).2
  · rintro ⟨entry, hentry, r, hr, hbarren⟩
    cases hfault : Mode.all.findSome? entries.fault? with
    | none =>
      have hnone := List.findSome?_eq_none_iff.1 hfault entry.1 entry.1.mem_all
      exact absurd hnone (h.fault?_ne_none hentry hr hbarren)
    | some fault =>
      obtain ⟨m, _, hm⟩ := List.exists_of_findSome?_eq_some hfault
      obtain ⟨⟨k, u, rfl⟩, _⟩ := h.exists_barren_of_fault? hm
      exact ⟨m, k, u, rfl⟩

/-! ### Rules that never take a byte -/

/-- With one table for each mode, what is refused for a barren rule has a rule that never takes a
byte. Where the bounds of all repetitions are consistent, each such rule is refused. -/
theorem build_refuses_barren (h : entries.Complete) :
    ((∃ mode k u, build entries = .error (.neverMatches mode k u)) →
      ∃ entry ∈ entries, ∃ r ∈ entry.2.rules, ¬ r.pattern.Consumes) ∧
    ((∀ entry ∈ entries, ∀ r ∈ entry.2.rules, r.pattern.consistent = true) →
      (∃ entry ∈ entries, ∃ r ∈ entry.2.rules, ¬ r.pattern.Consumes) →
      ∃ mode k u, build entries = .error (.neverMatches mode k u)) := by
  rw [build_neverMatches_iff_barren h]
  constructor
  · rintro ⟨entry, hentry, r, hr, hbarren⟩
    exact ⟨entry, hentry, r, hr, Rule.not_consumes_of_barren hbarren⟩
  · rintro hconsistent ⟨entry, hentry, r, hr, hnone⟩
    exact ⟨entry, hentry, r, hr, Rule.barren_of_not_consumes (hconsistent entry hentry r hr) hnone⟩

/-- One table for the commands and empty tables for the other modes. -/
def onlyCommand (rules : List Rule) : Registrations :=
  Mode.all.map fun mode => (mode, ⟨if mode = .command then rules else [], .eolTok⟩)

/-- A byte of the empty set behind an `a` makes the whole sequence barren. -/
theorem build_refuses_barren_tail :
    (onlyCommand [Shell.rule (.concat [.text "a", .oneOf ∅]) .litChars]).Complete ∧
      ∃ mode k u, build (onlyCommand [Shell.rule (.concat [.text "a", .oneOf ∅]) .litChars]) =
        .error (.neverMatches mode k u) := by
  have hcomplete : (onlyCommand [Shell.rule (.concat [.text "a", .oneOf ∅]) .litChars]).Complete :=
    fun mode => by cases mode <;> rfl
  refine ⟨hcomplete, (build_refuses_barren hcomplete).2 ?_ ?_⟩
  · decide
  · refine ⟨_, List.mem_cons_self, _, List.mem_singleton.2 rfl, ?_⟩
    exact Pattern.not_consumes_of_isEmpty_firstBytes (by decide)

/-- Two digits at most and three at least are never found, and the rule is not refused. -/
theorem build_accepts_excluding_bounds :
    ¬ ∀ entries : Registrations, entries.Complete →
      ((∃ mode k u, build entries = .error (.neverMatches mode k u)) ↔
        ∃ entry ∈ entries, ∃ r ∈ entry.2.rules, ¬ r.pattern.Consumes) := by
  intro hiff
  have hcomplete :
      (onlyCommand [Shell.rule (.times (.oneOf .digit) 3 (some 2)) .litDigits]).Complete :=
    fun mode => by cases mode <;> rfl
  have hnone : ¬ (Pattern.times (.oneOf .digit) 3 (some 2)).Consumes := by
    rw [Pattern.consumes_iff]
    rintro ⟨b, w, hw⟩
    obtain ⟨k, hmin, hmax, _⟩ := Pattern.mem_language_times.1 hw
    have := hmax 2 rfl
    omega
  obtain ⟨mode, k, u, hbuild⟩ :=
    (hiff _ hcomplete).2 ⟨_, List.mem_cons_self, _, List.mem_singleton.2 rfl, hnone⟩
  obtain ⟨entry, hentry, r, hr, hbarren⟩ :=
    (build_neverMatches_iff_barren hcomplete).1 ⟨mode, k, u, hbuild⟩
  revert hbarren
  revert r
  revert entry
  decide

end Grammar

end ShellTokens
