import ShellTokens.Proofs.Pattern.Alphabet
import ShellTokens.Proofs.Table.LongestRule

/-!
# Inputs with renamed bytes

When bytes of an input are renamed, a rule for the old bytes does there what another rule does for
the new ones, if the words of the first are those that become words of the second. Tables of such
rules, one by one, find the same match. A rule need not change if its words contain neither bytes
that are renamed nor bytes that others become.
-/

namespace ShellTokens

variable {f : UInt8 → UInt8} {input : Bytes} {i : Nat}

/-! ### Patterns -/

namespace Pattern

variable {p q : Pattern} {set set' : ByteSet}

/-- The words of the first pattern are those that become words of the second. -/
def Mirrors (f : UInt8 → UInt8) (p q : Pattern) : Prop :=
  ∀ w, w ∈ p.language ↔ w.map f ∈ q.language

/-- A pattern whose words have no byte that is renamed and none that another byte becomes. -/
theorem mirrors_self (h : ∀ b, f b ≠ b →
    p.letters.contains b = false ∧ p.letters.contains (f b) = false) : p.Mirrors f p := by
  intro w
  have hsame : (∀ b ∈ w, f b = b) → w.map f = w := by
    intro hfixed
    simpa using List.map_congr_left (g := id) hfixed
  constructor
  · intro hw
    have hfixed : ∀ b ∈ w, f b = b := by
      intro b hb
      by_contra hne
      have hletter := contains_letters_of_mem hw hb
      rw [(h b hne).1] at hletter
      contradiction
    rwa [hsame hfixed]
  · intro hw
    have hfixed : ∀ b ∈ w, f b = b := by
      intro b hb
      by_contra hne
      have hletter := contains_letters_of_mem hw (List.mem_map_of_mem hb)
      rw [(h b hne).2] at hletter
      contradiction
    rwa [hsame hfixed] at hw

theorem mirrors_oneOf (h : ∀ b, set.contains b = set'.contains (f b)) :
    (oneOf set).Mirrors f (oneOf set') := by
  intro w
  rw [mem_language_oneOf, mem_language_oneOf]
  constructor
  · rintro ⟨b, hb, rfl⟩
    exact ⟨f b, h b ▸ hb, rfl⟩
  · rintro ⟨c, hc, hw⟩
    obtain ⟨b, rfl, rfl⟩ := List.map_eq_singleton_iff.1 hw
    exact ⟨b, (h b).trans hc, rfl⟩

theorem mirrors_runOf {min : Nat} (h : ∀ b, set.contains b = set'.contains (f b)) :
    (runOf set min).Mirrors f (runOf set' min) := by
  intro w
  simp [runOf, mem_language_run, h]

/-- A byte that stays as it is, and then one of a set. -/
theorem mirrors_byte_oneOf {a : UInt8} (ha : ∀ b, f b = a ↔ b = a)
    (h : ∀ b, set.contains b = set'.contains (f b)) :
    (concat [byte a, oneOf set]).Mirrors f (concat [byte a, oneOf set']) := by
  intro w
  rw [mem_language_byte_oneOf, mem_language_byte_oneOf]
  constructor
  · rintro ⟨b, hb, rfl⟩
    exact ⟨f b, h b ▸ hb, by simp [(ha a).2 rfl]⟩
  · rintro ⟨c, hc, hw⟩
    obtain ⟨x, l, rfl, hx, hl⟩ := List.map_eq_cons_iff.1 hw
    obtain ⟨b, rfl, rfl⟩ := List.map_eq_singleton_iff.1 hl
    exact ⟨b, (h b).trans hc, by rw [(ha x).1 hx]⟩

theorem Mirrors.ends_eq (h : p.Mirrors f q) (hi : i ≤ input.size) :
    p.ends input i = q.ends (input.map f) i := by
  apply List.Pairwise.eq_of_mem_iff (ascending_ends _ _ _) (ascending_ends _ _ _)
  intro e
  have hi' : i ≤ (input.map f).size := by simpa using hi
  have hlanguage : p.language = {w | w.map f ∈ q.language} := by
    ext w
    exact h w
  rw [mem_ends_iff hi, mem_ends_iff hi', Bytes.spells_map, hlanguage]

end Pattern

/-! ### Rules -/

namespace Rule

variable {r r' : Rule}

/-- The rule finds for the old bytes what the other rule finds for the new ones. -/
structure Mirrors (f : UInt8 → UInt8) (r r' : Rule) : Prop where
  terminal_eq : r.terminal = r'.terminal
  pattern : r.pattern.Mirrors f r'.pattern

theorem Mirrors.longest_eq (h : Mirrors f r r') (hi : i ≤ input.size) :
    r.longest input i = r'.longest (input.map f) i := by
  rw [Rule.longest_eq, Rule.longest_eq, Pattern.longest_eq_max?, Pattern.longest_eq_max?,
    h.pattern.ends_eq hi]

/-- A rule that begins with no byte that is left finds nothing. -/
theorem longest_map_eq_none (h : ∀ b, r.first.contains (f b) = false) :
    r.longest (input.map f) i = none := by
  unfold longest
  cases hb : input[i]? <;> simp [hb, h]

end Rule

/-! ### Tables -/

namespace Table

variable {rules rules' : List Rule}

theorem improve_map {r r' : Rule} (h : Rule.Mirrors f r r') (hi : i ≤ input.size) (best : Match) :
    improve input i best r = improve (input.map f) i best r' := by
  rw [improve, improve, h.longest_eq hi, h.terminal_eq]

theorem foldl_improve_map (h : List.Forall₂ (Rule.Mirrors f) rules rules') (hi : i ≤ input.size)
    (best : Match) :
    rules.foldl (improve input i) best = rules'.foldl (improve (input.map f) i) best := by
  induction h generalizing best with
  | nil => rfl
  | cons hr _ ih => rw [List.foldl_cons, List.foldl_cons, improve_map hr hi, ih]

/-- Rules that mirror each other find the same match, and it makes no difference when there is one
more rule that finds nothing. -/
theorem bestMatch_map {t t' : Table} {front back : List Rule} {idle : Rule}
    (ht : List.Forall₂ (Rule.Mirrors f) t.rules (front ++ back))
    (ht' : t'.rules = front ++ idle :: back) (hidle : ∀ b, idle.first.contains (f b) = false)
    (hfallback : t.fallback = t'.fallback) (hi : i ≤ input.size) :
    t.bestMatch input i = t'.bestMatch (input.map f) i := by
  have hskip : ∀ best, improve (input.map f) i best idle = best := by
    intro best
    rw [improve, Rule.longest_map_eq_none hidle]
  rw [bestMatch, bestMatch, hfallback, ht', foldl_improve_map ht hi]
  simp [hskip]

end Table

end ShellTokens
