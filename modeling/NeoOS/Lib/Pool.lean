import Mathlib.Data.List.Perm.Basic

/-!
# Pools

An array whose entries have no order: an entry is removed by moving the last one into its
place. And a list of agents each of which holds some items: when one agent changes, what
all of them hold changes by what that agent holds.
-/

namespace Pool

open List

variable {α τ : Type*} {i : ℕ}

/-- Entry `i` is replaced by the last one, and the array gets shorter. -/
def swapRemove (l : List α) (i : ℕ) : List α :=
  match l.getLast? with
  | none => l
  | some x => (l.set i x).dropLast

theorem perm_swapRemove {l : List α} {x : α} (h : l[i]? = some x) : l.Perm (x :: swapRemove l i) := by
  obtain ⟨hi, hx⟩ := List.getElem?_eq_some_iff.1 h
  obtain ⟨init, y, rfl⟩ : ∃ init y, l = init ++ [y] := by
    have hne : l ≠ [] := by
      rintro rfl
      cases hi
    exact ⟨l.dropLast, l.getLast hne, (dropLast_append_getLast hne).symm⟩
  have hl : swapRemove (init ++ [y]) i = ((init ++ [y]).set i y).dropLast := by
    unfold swapRemove
    rw [getLast?_append_of_ne_nil _ (cons_ne_nil _ _)]
    rfl
  rw [hl]
  by_cases hlast : i < init.length
  · -- `y` takes the place of `x`
    rw [set_append_left _ _ hlast, dropLast_concat]
    have hx' : init[i] = x := by rwa [getElem_append_left hlast] at hx
    have hsplit := set_eq_take_append_cons_drop (l := init) (i := i) (a := y)
    rw [if_pos hlast] at hsplit
    rw [hsplit]
    have hinit : init = init.take i ++ x :: init.drop (i + 1) := by
      rw [← hx', ← drop_eq_getElem_cons hlast, take_append_drop]
    calc (init ++ [y]).Perm (y :: init) := perm_append_singleton _ _
      _ = y :: (init.take i ++ x :: init.drop (i + 1)) := by rw [← hinit]
      _ |>.Perm (y :: x :: (init.take i ++ init.drop (i + 1))) := perm_middle.cons y
      _ |>.Perm (x :: y :: (init.take i ++ init.drop (i + 1))) := List.Perm.swap _ _ _
      _ |>.Perm (x :: (init.take i ++ y :: init.drop (i + 1))) := perm_middle.symm.cons x
  · -- `x` is the last one
    have hi' : i = init.length := by
      rw [length_append, length_singleton] at hi
      omega
    subst hi'
    have hxy : y = x := by simpa using hx
    rw [set_append_right _ _ (Nat.le_refl _), Nat.sub_self, set_cons_zero, dropLast_concat, hxy]
    exact perm_append_singleton _ _

theorem perm_flatMap_set (held : τ → List α) {l : List τ} {x : τ} (y : τ) (h : l[i]? = some x) :
    ∃ rest, (l.flatMap held).Perm (held x ++ rest) ∧ ((l.set i y).flatMap held).Perm (held y ++ rest) := by
  obtain ⟨hi, hx⟩ := List.getElem?_eq_some_iff.1 h
  have hl : l = l.take i ++ x :: l.drop (i + 1) := by
    rw [← hx, ← drop_eq_getElem_cons hi, take_append_drop]
  have hset := set_eq_take_append_cons_drop (l := l) (i := i) (a := y)
  rw [if_pos hi] at hset
  have hmid : ∀ z, ((l.take i ++ z :: l.drop (i + 1)).flatMap held).Perm
      (held z ++ ((l.take i).flatMap held ++ (l.drop (i + 1)).flatMap held)) := by
    intro z
    rw [flatMap_append, flatMap_cons]
    exact perm_append_comm_assoc _ _ _
  refine ⟨(l.take i).flatMap held ++ (l.drop (i + 1)).flatMap held, ?_, ?_⟩
  · have := hmid x
    rwa [← hl] at this
  · rw [hset]
    exact hmid y

end Pool
