import ShellTokens.Line

/-!
# Histograms

A histogram tells how many tokens there are of each category.
-/

namespace ShellTokens

/-- The number of tokens of the category. -/
def tokenCount (tokens : List Token) (c : Category) : Nat :=
  tokens.countP fun t => t.terminal.category = c

/-- The categories of the tokens with their numbers, the most frequent one first. Categories with
the same number stand in their own order. -/
def histogram (tokens : List Token) : List (Category × Nat) :=
  let present := Category.all.filter fun c => 0 < tokenCount tokens c
  (present.map fun c => (c, tokenCount tokens c)).mergeSort fun (_, m) (_, n) => n ≤ m

theorem mem_histogram {tokens : List Token} {c : Category} {n : Nat} :
    (c, n) ∈ histogram tokens ↔ n = tokenCount tokens c ∧ 0 < n := by
  simp only [histogram, List.mem_mergeSort, List.mem_map, List.mem_filter, decide_eq_true_eq,
    Prod.mk.injEq]
  constructor
  · rintro ⟨c, ⟨-, hc⟩, rfl, rfl⟩
    exact ⟨rfl, hc⟩
  · rintro ⟨rfl, hn⟩
    exact ⟨c, ⟨c.mem_all, hn⟩, rfl, rfl⟩

end ShellTokens
