import Mathlib.Logic.Relation
import Mathlib.Order.Basic

/-!
# Wait-for graphs

Agents hold resources and wait for others. If what an agent waits for is above everything it holds, in some order of
the resources, no agent waits for itself along a chain of others.
-/

namespace WaitFor

variable {α β γ : Type*} {waits holds : α → Set β} {a b : α}

/-- `a` waits for something that `b` holds. -/
def Edge (waits holds : α → Set β) (a b : α) : Prop := ∃ l ∈ waits a, l ∈ holds b

variable [Preorder γ] {f : β → γ}

/-- What the first agent of a chain waits for is at most something the last one holds. -/
theorem le_of_transGen (hup : ∀ a, ∀ l ∈ waits a, ∀ m ∈ holds a, f m < f l) (h : Relation.TransGen (Edge waits holds) a b) :
    ∃ l ∈ waits a, ∃ m ∈ holds b, f l ≤ f m := by
  induction h with
  | single hab =>
    obtain ⟨l, hl, hm⟩ := hab
    exact ⟨l, hl, l, hm, le_refl (f l)⟩
  | tail _ hbc ih =>
    obtain ⟨l, hl, m, hm, hle⟩ := ih
    obtain ⟨l', hl', hm'⟩ := hbc
    exact ⟨l, hl, l', hm', le_trans hle (le_of_lt (hup _ l' hl' m hm))⟩

/-- **No cycles.** -/
theorem acyclic (hup : ∀ a, ∀ l ∈ waits a, ∀ m ∈ holds a, f m < f l) (a : α) : ¬Relation.TransGen (Edge waits holds) a a := by
  intro h
  obtain ⟨l, hl, m, hm, hle⟩ := le_of_transGen hup h
  exact absurd (hup a l hl m hm) (not_lt_of_ge hle)

end WaitFor
