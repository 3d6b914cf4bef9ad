import Mathlib.Algebra.Order.BigOperators.Group.Finset

/-!
# Sums over a radix tree

A radix tree with fan-out `b` has its nodes at levels `l, l - 1, …, 1`; the node at
level `l` with index path `key` has the children `key * b + i` one level down.
`total b w l key` is the weight of the subtree at a node and `forest b w l S` the
weight of the trees at the roots `S`. A table changes node by node, so what matters
is how a sum moves when one node does: `forest_change`.
-/

namespace Radix

open Finset

variable {b l l₀ key key₀ : ℕ} {w w' : ℕ → ℕ → ℕ} {S : Finset ℕ}

/-- The weight of the subtree at level `l`, `key`. -/
def total (b : ℕ) (w : ℕ → ℕ → ℕ) : ℕ → ℕ → ℕ
  | 0, _ => 0
  | l + 1, key => w (l + 1) key + ∑ i ∈ range b, total b w l (key * b + i)

/-- The weight of the trees of height `l` at the roots `S`. -/
def forest (b : ℕ) (w : ℕ → ℕ → ℕ) (l : ℕ) (S : Finset ℕ) : ℕ := ∑ i ∈ S, total b w l i

/-- The node `l₀`, `key₀` lies in the subtree at `l`, `key`. -/
def Below (b l key l₀ key₀ : ℕ) : Prop := 1 ≤ l₀ ∧ l₀ ≤ l ∧ key₀ / b ^ (l - l₀) = key

instance : Decidable (Below b l key l₀ key₀) := inferInstanceAs (Decidable (_ ∧ _))

theorem child_div {i : ℕ} (hi : i < b) (key : ℕ) : (key * b + i) / b = key := by
  rw [Nat.mul_comm, Nat.mul_add_div (by omega), Nat.div_eq_of_lt hi, add_zero]

theorem div_pow_succ (hl : l₀ ≤ l) (key : ℕ) : key / b ^ (l + 1 - l₀) = key / b ^ (l - l₀) / b := by
  rw [Nat.div_div_eq_div_mul, ← pow_succ]
  congr 2; omega

theorem sum_child (hb : 0 < b) (q key c : ℕ) :
    (∑ i ∈ range b, if q = key * b + i then c else 0) = if q / b = key then c else 0 := by
  have hq := Nat.div_add_mod q b
  have hlt := Nat.mod_lt q hb
  have hcomm := Nat.mul_comm b (q / b)
  split
  · rename_i h
    subst h
    rw [sum_eq_single (q % b), if_pos (by omega)]
    · intro i _ hne
      exact if_neg fun he => hne (by omega)
    · intro hn
      exact absurd (mem_range.2 hlt) hn
  · rename_i h
    refine sum_eq_zero fun i hi => if_neg fun he => h ?_
    rw [he, child_div (mem_range.1 hi)]

/-- **One node changes**, seen from a subtree. -/
theorem total_change (hb : 0 < b) (h : ∀ l' key', ¬ (l' = l₀ ∧ key' = key₀) → w l' key' = w' l' key') :
    ∀ l key, total b w' l key + (if Below b l key l₀ key₀ then w l₀ key₀ else 0) =
      total b w l key + if Below b l key l₀ key₀ then w' l₀ key₀ else 0 := by
  intro l
  induction l with
  | zero =>
    intro key
    have hn : ¬ Below b 0 key l₀ key₀ := fun hB => by have := hB.1; have := hB.2.1; omega
    simp only [total, if_neg hn]
  | succ l ih =>
    intro key
    have hsum := sum_congr (rfl : range b = range b) fun i _ => ih (key * b + i)
    rw [sum_add_distrib, sum_add_distrib] at hsum
    simp only [total]
    by_cases hl : l₀ = l + 1
    · -- the node itself is on this level, so nothing changes below
      subst hl
      have hn : ∀ i, ¬ Below b l (key * b + i) (l + 1) key₀ := fun i hB => by have := hB.2.1; omega
      simp only [if_neg (hn _), sum_const_zero, add_zero] at hsum
      by_cases hk : key = key₀
      · subst hk
        have hB : Below b (l + 1) key (l + 1) key := ⟨by omega, le_rfl, by simp⟩
        rw [if_pos hB, if_pos hB]; omega
      · have hB : ¬ Below b (l + 1) key (l + 1) key₀ := fun hB => hk (by simpa using hB.2.2.symm)
        rw [if_neg hB, if_neg hB, h (l + 1) key fun he => hk he.2, hsum]
    · -- one child at most leads to the node
      have hw := h (l + 1) key fun he => hl he.1.symm
      have hchild : ∀ c, (∑ i ∈ range b, if Below b l (key * b + i) l₀ key₀ then c else 0) =
          if Below b (l + 1) key l₀ key₀ then c else 0 := by
        intro c
        by_cases hr : 1 ≤ l₀ ∧ l₀ ≤ l
        · have hpow := div_pow_succ (b := b) hr.2 key₀
          have h1 : ∀ i, Below b l (key * b + i) l₀ key₀ ↔ key₀ / b ^ (l - l₀) = key * b + i := fun i =>
            ⟨fun hB => hB.2.2, fun he => ⟨hr.1, hr.2, he⟩⟩
          have h2 : Below b (l + 1) key l₀ key₀ ↔ key₀ / b ^ (l - l₀) / b = key :=
            ⟨fun hB => hpow ▸ hB.2.2, fun he => ⟨hr.1, by omega, hpow ▸ he⟩⟩
          simp only [h1, h2]
          exact sum_child hb _ _ _
        · have h1 : ∀ i, ¬ Below b l (key * b + i) l₀ key₀ := fun i hB => hr ⟨hB.1, hB.2.1⟩
          have h2 : ¬ Below b (l + 1) key l₀ key₀ := fun hB => hr ⟨hB.1, by have := hB.2.1; omega⟩
          simp only [if_neg (h1 _), if_neg h2, sum_const_zero]
      rw [hchild, hchild] at hsum
      omega

/-- **One node changes**, seen from the forest it belongs to. -/
theorem forest_change (w w' : ℕ → ℕ → ℕ) (hb : 0 < b) (h1 : 1 ≤ l₀) (hl : l₀ ≤ l) (hS : key₀ / b ^ (l - l₀) ∈ S)
    (h : ∀ l' key', ¬ (l' = l₀ ∧ key' = key₀) → w l' key' = w' l' key') :
    forest b w' l S + w l₀ key₀ = forest b w l S + w' l₀ key₀ := by
  have hsum := sum_congr (rfl : S = S) fun i _ => total_change hb h l i
  have hone : ∀ c, (∑ i ∈ S, if Below b l i l₀ key₀ then c else 0) = c := by
    intro c
    rw [sum_eq_single (key₀ / b ^ (l - l₀))]
    · exact if_pos ⟨h1, hl, rfl⟩
    · exact fun i _ hne => if_neg fun hB => hne hB.2.2.symm
    · exact fun hn => absurd hS hn
  rw [sum_add_distrib, sum_add_distrib, hone, hone] at hsum
  exact hsum

theorem total_congr : ∀ l key, (∀ l' key', Below b l key l' key' → w l' key' = w' l' key') →
    total b w l key = total b w' l key := by
  intro l
  induction l with
  | zero => intro key _; rfl
  | succ l ih =>
    intro key h
    simp only [total]
    rw [h (l + 1) key ⟨by omega, le_rfl, by simp⟩]
    congr 1
    refine sum_congr rfl fun i hi => ih _ fun l' key' hB => h l' key' ⟨hB.1, by have := hB.2.1; omega, ?_⟩
    rw [div_pow_succ hB.2.1, hB.2.2, child_div (mem_range.1 hi)]

theorem forest_congr (h : ∀ l' key', 1 ≤ l' → l' ≤ l → key' / b ^ (l - l') ∈ S →
    w l' key' = w' l' key') : forest b w l S = forest b w' l S :=
  sum_congr rfl fun i hi => total_congr l i fun l' key' hB =>
    h l' key' hB.1 hB.2.1 (hB.2.2.symm ▸ hi)

theorem total_zero (l : ℕ) : ∀ key, total b (fun _ _ => 0) l key = 0 := by
  induction l with
  | zero => intro key; rfl
  | succ l ih => intro key; simp only [total, ih, sum_const_zero, add_zero]

theorem forest_eq_zero (h : ∀ l' key', 1 ≤ l' → l' ≤ l → key' / b ^ (l - l') ∈ S → w l' key' = 0) : forest b w l S = 0 := by
  rw [forest_congr h]
  exact sum_eq_zero fun i _ => total_zero l i

theorem le_forest (hb : 0 < b) (h1 : 1 ≤ l₀) (hl : l₀ ≤ l) (hS : key₀ / b ^ (l - l₀) ∈ S) : w l₀ key₀ ≤ forest b w l S := by
  have h := forest_change w (fun l' key' => if l' = l₀ ∧ key' = key₀ then 0 else w l' key') hb h1 hl hS
    fun l' key' hne => (if_neg hne).symm
  simp only [and_self, if_true] at h
  omega

theorem add_le_forest {l₁ key₁ : ℕ} (hb : 0 < b) (h1 : 1 ≤ l₀) (hl : l₀ ≤ l)
    (hS : key₀ / b ^ (l - l₀) ∈ S) (h1' : 1 ≤ l₁) (hl' : l₁ ≤ l) (hS' : key₁ / b ^ (l - l₁) ∈ S)
    (hne : ¬ (l₁ = l₀ ∧ key₁ = key₀)) : w l₀ key₀ + w l₁ key₁ ≤ forest b w l S := by
  have h := forest_change w (fun l' key' => if l' = l₀ ∧ key' = key₀ then 0 else w l' key') hb h1 hl hS
    fun l' key' hne => (if_neg hne).symm
  have h2 := le_forest (w := fun l' key' => if l' = l₀ ∧ key' = key₀ then 0 else w l' key') hb h1' hl' hS'
  simp only [and_self, if_true, if_neg hne] at h h2
  omega

end Radix
