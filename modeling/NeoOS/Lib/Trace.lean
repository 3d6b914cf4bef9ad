import Mathlib.Data.Finset.Lattice.Fold
import Mathlib.Data.Fintype.Basic
import NeoOS.Lib.Run

/-!
# Fair runs

Infinite runs of a step function whose steps are taken by threads. `progress` is the rule for one thread: while
it can run, each of its own steps brings it nearer, and no other step takes it further away. `eventually_all`
joins what every thread comes to. A finite list of steps with a tail that changes nothing is such a run.
-/

namespace Trace

open List

variable {σ α ι : Type*} {step : σ → α → σ} {ok : σ → α → Prop} {enabled : σ → ι → Prop} {owner : α → Option ι}
  {s : σ} {es tail : ℕ → α} {I : σ → Prop} {k : ℕ} {l : List α}

/-- The states of the run that takes the steps `es`. -/
def state (step : σ → α → σ) (s : σ) (es : ℕ → α) : ℕ → σ
  | 0 => s
  | k + 1 => step (state step s es k) (es k)

/-- Every step meets the condition. -/
def Valid (step : σ → α → σ) (ok : σ → α → Prop) (s : σ) (es : ℕ → α) : Prop := ∀ k, ok (state step s es k) (es k)

/-- A thread that can run from some moment on takes a step after it. -/
def Fair (step : σ → α → σ) (enabled : σ → ι → Prop) (owner : α → Option ι) (s : σ) (es : ℕ → α) : Prop :=
  ∀ t k, ∃ j ≥ k, ¬enabled (state step s es j) t ∨ owner (es j) = some t

theorem Valid.invariant (hstep : ∀ s e, I s → ok s e → I (step s e)) (hv : Valid step ok s es) (hs : I s) (k : ℕ) :
    I (state step s es k) := by
  induction k with
  | zero => exact hs
  | succ k ih => exact hstep _ _ ih (hv k)

theorem Valid.stable (hstep : ∀ s e, I s → ok s e → I (step s e)) (hv : Valid step ok s es)
    (hs : I (state step s es k)) {j : ℕ} (hj : k ≤ j) : I (state step s es j) := by
  induction j, hj using Nat.le_induction with
  | base => exact hs
  | succ j _ ih => exact hstep _ _ ih (hv j)

/-- **Progress of one thread.** -/
theorem progress {P Q : σ → Prop} (rank : σ → ℕ) (t : ι) (hv : Valid step ok s es) (hf : Fair step enabled owner s es)
    (hrun : ∀ s, P s → ¬Q s → enabled s t)
    (hother : ∀ s e, P s → ¬Q s → ok s e → owner e ≠ some t → Q (step s e) ∨ P (step s e) ∧ rank (step s e) ≤ rank s)
    (hown : ∀ s e, P s → ¬Q s → ok s e → owner e = some t → Q (step s e) ∨ P (step s e) ∧ rank (step s e) < rank s)
    (hk : P (state step s es k)) : ∃ j ≥ k, Q (state step s es j) := by
  have hany : ∀ s e, P s → ¬Q s → ok s e → Q (step s e) ∨ P (step s e) ∧ rank (step s e) ≤ rank s := by
    intro s e hp hq hok
    by_cases ho : owner e = some t
    · exact (hown s e hp hq hok ho).imp_right fun h => ⟨h.1, h.2.le⟩
    · exact hother s e hp hq hok ho
  -- by strong induction on the rank: until the next step of the thread nothing is lost
  induction hr : rank (state step s es k) using Nat.strong_induction_on generalizing k with
  | _ r ih =>
    by_contra hno
    have hnq : ∀ j ≥ k, ¬Q (state step s es j) := fun j hj hq => hno ⟨j, hj, hq⟩
    have hstay : ∀ j, k ≤ j → P (state step s es j) ∧ rank (state step s es j) ≤ r := by
      intro j hj
      induction j, hj using Nat.le_induction with
      | base => exact ⟨hk, hr.le⟩
      | succ j hj hij =>
        rcases hany _ _ hij.1 (hnq j hj) (hv j) with hq | ⟨hp, hle⟩
        · exact absurd hq (hnq (j + 1) (Nat.le_succ_of_le hj))
        · exact ⟨hp, hle.trans hij.2⟩
    obtain ⟨j, hj, hen⟩ := hf t k
    obtain ⟨hp, hle⟩ := hstay j hj
    rcases hen with hen | hen
    · exact hen (hrun _ hp (hnq j hj))
    · rcases hown _ _ hp (hnq j hj) (hv j) hen with hq | ⟨hp', hlt⟩
      · exact hnq (j + 1) (Nat.le_succ_of_le hj) hq
      · obtain ⟨i, hi, hq⟩ := ih _ (lt_of_lt_of_le hlt hle) (k := j + 1) hp' rfl
        exact hnq i (le_trans (Nat.le_succ_of_le hj) hi) hq

/-- What every thread comes to after `k` and keeps, all of them come to together. -/
theorem eventually_all [Fintype ι] {A : ι → ℕ → Prop} (hkeep : ∀ t i j, k ≤ i → i ≤ j → A t i → A t j)
    (h : ∀ t, ∃ j ≥ k, A t j) : ∃ j ≥ k, ∀ t, A t j := by
  choose f hf hA using h
  refine ⟨Finset.univ.sup f ⊔ k, le_sup_right, fun t => hkeep t (f t) _ (hf t) ?_ (hA t)⟩
  exact (Finset.le_sup (Finset.mem_univ t)).trans le_sup_left

/-! ## Runs that come to rest -/

/-- The steps `l`, and then `tail`. -/
def script (l : List α) (tail : ℕ → α) (k : ℕ) : α := l[k]?.getD (tail k)

theorem script_of_lt (tail : ℕ → α) (hk : k < l.length) : script l tail k = l.get ⟨k, hk⟩ := by
  unfold script
  rw [getElem?_eq_getElem hk]
  rfl

theorem script_of_le (tail : ℕ → α) (hk : l.length ≤ k) : script l tail k = tail k := by
  unfold script
  rw [getElem?_eq_none hk]
  rfl

theorem state_script (tail : ℕ → α) (hk : k ≤ l.length) : state step s (script l tail) k = Run.final step s (l.take k) := by
  induction k with
  | zero => rfl
  | succ k ih =>
    show step (state step s (script l tail) k) _ = _
    rw [ih (Nat.le_of_succ_le hk), script_of_lt tail hk, take_add_one, getElem?_eq_getElem hk, Run.final_append]
    rfl

section

variable (hrest : ∀ k, step (Run.final step s l) (tail k) = Run.final step s l)
include hrest

theorem state_script_rest (hk : l.length ≤ k) : state step s (script l tail) k = Run.final step s l := by
  induction k, hk using Nat.le_induction with
  | base => rw [state_script tail (le_refl _), take_length]
  | succ k hk ih =>
    show step (state step s (script l tail) k) _ = _
    rw [ih, script_of_le tail hk, hrest k]

theorem valid_script (hv : Run.Valid step ok s l) (hok : ∀ k, ok (Run.final step s l) (tail k)) :
    Valid step ok s (script l tail) := by
  intro k
  by_cases hk : k < l.length
  · rw [state_script tail hk.le, script_of_lt tail hk]
    exact hv.get hk
  · rw [state_script_rest hrest (Nat.le_of_not_lt hk), script_of_le tail (Nat.le_of_not_lt hk)]
    exact hok k

/-- Such a run is fair when every thread that can run at its end takes a step again and again. -/
theorem fair_script (hen : ∀ t, enabled (Run.final step s l) t → ∀ k, ∃ j ≥ k, owner (tail j) = some t) :
    Fair step enabled owner s (script l tail) := by
  intro t k
  by_cases ht : enabled (Run.final step s l) t
  · obtain ⟨j, hj, ho⟩ := hen t ht (max k l.length)
    refine ⟨j, (le_max_left _ _).trans hj, .inr ?_⟩
    rw [script_of_le tail ((le_max_right _ _).trans hj)]
    exact ho
  · refine ⟨max k l.length, le_max_left _ _, .inl ?_⟩
    rw [state_script_rest hrest (le_max_right _ _)]
    exact ht

end

end Trace
