import Mathlib.Algebra.BigOperators.Group.Finset.Piecewise
import Mathlib.Data.Fintype.Basic

/-!
# A family changed at one index

Counts, sums and concatenations over the indices, after `Function.update`: the old value at the
index leaves and the new one enters, whatever else there is.
-/

namespace Update

open List
open Function (update update_of_ne update_self)

variable {α β : Type*} {l : List ℕ} {i n : ℕ}

theorem flatMap_of_notMem (g : ℕ → List α) (v : List α) (h : i ∉ l) : l.flatMap (update g i v) = l.flatMap g := by
  refine flatMap_congr fun j hj => ?_
  rw [update_of_ne]
  rintro rfl
  exact h hj

theorem flatMap_perm (g : ℕ → List α) (v : List α) (hl : l.Nodup) (h : i ∈ l) :
    (l.flatMap (update g i v) ++ g i).Perm (l.flatMap g ++ v) := by
  induction l with
  | nil => cases h
  | cons j l ih =>
    obtain ⟨hj, hl⟩ := nodup_cons.mp hl
    simp only [flatMap_cons]
    by_cases hij : j = i
    · -- the changed index comes first: the rest of the concatenation is the same
      subst hij
      rw [flatMap_of_notMem g v hj, update_self]
      refine (perm_append_comm.trans ?_)
      rw [append_assoc]
      exact List.Perm.append_left _ perm_append_comm
    · rw [update_of_ne hij, append_assoc, append_assoc]
      rcases mem_cons.mp h with rfl | h
      · exact absurd rfl hij
      · exact List.Perm.append_left _ (ih hl h)

theorem sum_range (f : ℕ → α) (g : α → ℕ) (a : α) (h : i < n) :
    ∑ j ∈ Finset.range n, g (update f i a j) + g (f i) = ∑ j ∈ Finset.range n, g (f j) + g a := by
  have hi : i ∈ Finset.range n := Finset.mem_range.mpr h
  rw [← Finset.add_sum_erase _ _ hi, ← Finset.add_sum_erase _ (fun j => g (f j)) hi, update_self]
  have hrest : ∑ j ∈ (Finset.range n).erase i, g (update f i a j) = ∑ j ∈ (Finset.range n).erase i, g (f j) := by
    refine Finset.sum_congr rfl fun j hj => ?_
    rw [update_of_ne (Finset.ne_of_mem_erase hj)]
  omega

theorem card_filter {ι : Type*} [Fintype ι] [DecidableEq ι] (p : α → Bool) (f : ι → α) (i : ι) (a : α) :
    (Finset.univ.filter fun j => p (update f i a j) = true).card + (p (f i)).toNat =
      (Finset.univ.filter fun j => p (f j) = true).card + (p a).toNat := by
  have hi := Finset.mem_univ i
  have hcount : ∀ g : ι → α, (Finset.univ.filter fun j => p (g j) = true).card =
      (p (g i)).toNat + ∑ j ∈ Finset.univ.erase i, (p (g j)).toNat := by
    intro g
    rw [Finset.add_sum_erase _ (fun j => (p (g j)).toNat) hi, Finset.card_filter]
    refine Finset.sum_congr rfl fun j _ => ?_
    cases p (g j) <;> rfl
  have hrest : ∑ j ∈ Finset.univ.erase i, (p (update f i a j)).toNat = ∑ j ∈ Finset.univ.erase i, (p (f j)).toNat := by
    refine Finset.sum_congr rfl fun j hj => ?_
    rw [update_of_ne (Finset.ne_of_mem_erase hj)]
  rw [hcount, hcount f, hrest, update_self]
  omega

section Partial

variable {m : ℕ → Option α} {v : Option α} {k : ℕ}

theorem forall_some {P : ℕ → α → Prop} (h : ∀ j a, m j = some a → P j a) (hv : ∀ a, v = some a → P i a) :
    ∀ j a, update m i v j = some a → P j a :=
  (Function.forall_update_iff m fun j x => ∀ a, x = some a → P j a).2 ⟨hv, fun j _ => h j⟩

theorem forall_none (h : ∀ j, k ≤ j → m j = none) (hv : k ≤ i → v = none) : ∀ j, k ≤ j → update m i v j = none :=
  (Function.forall_update_iff m fun j x => k ≤ j → x = none).2 ⟨hv, fun j _ => h j⟩

end Partial

section Buckets

variable {ι : Type*} [DecidableEq ι] {q : ι → List α} {b c : ι} {t u : α} {k : List α}

theorem nodup_update (h : ∀ c, (q c).Nodup) (hk : k.Nodup) (c : ι) : (update q b k c).Nodup :=
  (Function.forall_update_iff q fun _ l => l.Nodup).2 ⟨hk, fun c _ => h c⟩ c

theorem mem_update_push : u ∈ update q b (t :: q b) c ↔ u ∈ q c ∨ u = t ∧ c = b := by
  by_cases hc : c = b
  · subst hc
    rw [update_self, mem_cons]
    exact ⟨fun h => h.symm.imp_right fun h => ⟨h, rfl⟩, fun h => h.symm.imp_left fun h => h.1⟩
  · rw [update_of_ne hc]
    exact ⟨.inl, fun h => h.resolve_right fun h => hc h.2⟩

/-- The element leaves the only bucket it can be in. -/
theorem mem_update_erase [DecidableEq α] (hq : (q b).Nodup) (hb : ∀ c, t ∈ q c → c = b) :
    u ∈ update q b ((q b).erase t) c ↔ u ≠ t ∧ u ∈ q c := by
  by_cases hc : c = b
  · subst hc
    rw [update_self]
    exact hq.mem_erase_iff
  · rw [update_of_ne hc]
    refine (and_iff_right_of_imp ?_).symm
    rintro hu rfl
    exact hc (hb c hu)

end Buckets

end Update
