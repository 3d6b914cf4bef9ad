import Mathlib.Logic.Relation
import Mathlib.Tactic.Common

/-!
# Runs of a step function

A machine is a step function `step : σ → α → σ` with a condition `ok` on the
state before each step. `Valid` collects the runs all of whose steps meet the
condition, and `Valid.invariant` is the induction every safety result over runs
goes through.
-/

-- Numerals and membership of the index types of small systems, under a name of their own.
instance neZeroOne : @NeZero ℕ Zero.ofOfNat0 1 := ⟨by decide⟩
instance neZeroTwo : @NeZero ℕ Zero.ofOfNat0 2 := ⟨by decide⟩
instance neZeroThree : @NeZero ℕ Zero.ofOfNat0 3 := ⟨by decide⟩
instance lawfulFin (n : ℕ) : LawfulBEq (Fin n) := inferInstance

namespace Run

variable {σ α : Type*} {step : σ → α → σ} {ok : σ → α → Prop} {I : σ → Prop} {s : σ} {as : List α}

/-- Every step of the run from `s` meets `ok`. -/
def Valid (step : σ → α → σ) (ok : σ → α → Prop) : σ → List α → Prop
  | _, [] => True
  | s, a :: as => ok s a ∧ Valid step ok (step s a) as

instance decidableValid [∀ s a, Decidable (ok s a)] : ∀ (s : σ) (as : List α), Decidable (Valid step ok s as)
  | _, [] => isTrue trivial
  | s, a :: as =>
    have := decidableValid (step s a) as
    inferInstanceAs (Decidable (_ ∧ _))

/-- The state at the end of the run. -/
def final (step : σ → α → σ) (s : σ) (as : List α) : σ := as.foldl step s

@[simp] theorem final_nil (s : σ) : final step s [] = s := rfl

@[simp] theorem final_cons (s : σ) (a : α) (as : List α) : final step s (a :: as) = final step (step s a) as := rfl

theorem final_append (s : σ) (as bs : List α) : final step s (as ++ bs) = final step (final step s as) bs := List.foldl_append

theorem valid_append {bs : List α} : Valid step ok s (as ++ bs) ↔ Valid step ok s as ∧ Valid step ok (final step s as) bs := by
  induction as generalizing s with
  | nil => exact (and_iff_right trivial).symm
  | cons a as ih =>
    rw [List.cons_append, Valid, Valid, ih, and_assoc]
    rfl

/-- **Invariants.** What holds at the start and is kept by every step that meets
the condition holds at the end of every run that meets it. -/
theorem Valid.invariant (hstep : ∀ s a, I s → ok s a → I (step s a)) (hv : Valid step ok s as)
    (hs : I s) : I (final step s as) := by
  induction as generalizing s with
  | nil => exact hs
  | cons a as ih => exact ih hv.2 (hstep s a hs hv.1)

/-- A run meets the condition if each step does, in the state the steps before it lead to. -/
theorem valid_of_take (h : ∀ n (hn : n < as.length), ok (final step s (as.take n)) (as.get ⟨n, hn⟩)) : Valid step ok s as := by
  induction as generalizing s with
  | nil => trivial
  | cons a as ih => exact ⟨h 0 (Nat.succ_pos _), ih fun n hn => h (n + 1) (Nat.succ_lt_succ hn)⟩

theorem Valid.get (hv : Valid step ok s as) {n : ℕ} (hn : n < as.length) : ok (final step s (as.take n)) (as.get ⟨n, hn⟩) := by
  induction as generalizing s n with
  | nil => exact absurd hn (Nat.not_lt_zero n)
  | cons a as ih =>
    cases n with
    | zero => exact hv.1
    | succ n => exact ih hv.2 (Nat.lt_of_succ_lt_succ hn)

/-- A run that meets a condition meets every weaker one. -/
theorem Valid.mono {ok' : σ → α → Prop} (hok : ∀ s a, ok s a → ok' s a) (hv : Valid step ok s as) : Valid step ok' s as := by
  induction as generalizing s with
  | nil => trivial
  | cons a as ih => exact ⟨hok s a hv.1, ih hv.2⟩

theorem foldl_rel {β : Type*} {r : σ → σ → Prop} {f : σ → β → σ} (hrefl : ∀ s, r s s)
    (htrans : ∀ s t u, r s t → r t u → r s u) {l : List β} (h : ∀ x ∈ l, ∀ s, r s (f s x)) (s : σ) :
    r s (l.foldl f s) := by
  induction l generalizing s with
  | nil => exact hrefl s
  | cons x l ih =>
    exact htrans _ _ _ (h x List.mem_cons_self s) (ih (fun y hy => h y (List.mem_cons_of_mem _ hy)) _)

end Run
