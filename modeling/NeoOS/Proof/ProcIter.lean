import Mathlib.Data.List.Nodup
import NeoOS.Lib.Run
import NeoOS.Spec.ProcIter

/-!
# A walk visits every process once

A process that stays in the table is behind the walk and visited, or ahead of it and without its stamp, or in the
bucket the walk is at and stamped (`Fine`).
-/

namespace NeoOS.ProcIter

open List
open Function (update update_of_ne update_self)

variable {n : ℕ} {s : State n} {p : ℕ} {w : Fin n} {k : Walk}

/-- At its end, a walk has visited every process that stayed once. -/
def Once (s : State n) : Prop :=
  ∀ w p, (s.walks w).bucket = buckets → s.stayed w p → (s.walks w).visited.count p = 1

/-- No process bears the number that a walk gets. When a walk takes a batch, no other walk under way has its number or
is between two batches of the bucket. -/
def StepOK (s : State n) : Event n → Prop
  | .start _ => ∀ p ∈ s.procs, s.stamp p ≠ nextGen s
  | .batch w => ∀ w', w' ≠ w → (s.walks w').bucket < buckets →
      (s.walks w').gen ≠ (s.walks w).gen ∧ ((s.walks w').bucket = (s.walks w).bucket → (s.walks w').mid = false)
  | _ => True

instance (s : State n) (e : Event n) : Decidable (StepOK s e) :=
  match e with
  | .start _ => inferInstanceAs (Decidable (∀ p ∈ s.procs, _))
  | .batch w => inferInstanceAs (Decidable (∀ w', w' ≠ w → _))
  | .insert _ | .remove _ => isTrue trivial

/-- Where a walk stands to a process with the stamp `st`. -/
inductive Fine (k : Walk) (st p : ℕ) : Prop
  | behind (hb : procHash p < k.bucket) (hv : k.visited.count p = 1)
  | ahead (hb : k.bucket ≤ procHash p) (hst : st ≠ k.gen) (hv : k.visited.count p = 0)
  | here (hb : procHash p = k.bucket) (hmid : k.mid) (hst : st = k.gen) (hv : k.visited.count p = 1)

structure Inv (s : State n) : Prop where
  nodup : s.procs.Nodup
  walks : ∀ w p, s.stayed w p → p ∈ s.procs ∧ Fine (s.walks w) (s.stamp p) p

theorem procHash_lt (p : ℕ) : procHash p < buckets := Nat.mod_lt _ (by decide)

theorem mem_batch (h : p ∈ batch k s) : procHash p = k.bucket ∧ s.stamp p ≠ k.gen := by
  simpa using (mem_filter.1 (mem_of_mem_take h)).2

theorem full_batch (hp : p ∈ s.procs) (hb : procHash p = k.bucket) (hst : s.stamp p ≠ k.gen)
    (h : p ∉ batch k s) : ¬(batch k s).length < 8 := by
  unfold batch at h ⊢
  intro hlen
  rw [length_take] at hlen
  rw [take_of_length_le (by omega)] at h
  exact h (mem_filter.2 ⟨hp, by simpa using ⟨hb, hst⟩⟩)

/-- **The walk that takes a batch.** -/
theorem Fine.take {st : ℕ} {b : List ℕ} (hf : Fine k st p) (hb : b.Nodup) (hmem : p ∈ b → procHash p = k.bucket ∧ st ≠ k.gen)
    (hfull : procHash p = k.bucket → st ≠ k.gen → p ∉ b → ¬b.length < 8) :
    Fine (k.take b) (if p ∈ b then k.gen else st) p := by
  have hcount : (k.take b).visited.count p = k.visited.count p + b.count p := count_append
  by_cases hp : p ∈ b
  · obtain ⟨hhash, hst⟩ := hmem hp
    rw [count_eq_one_of_mem hb hp] at hcount
    rw [if_pos hp]
    cases hf with
    | behind hlt => omega
    | here _ _ hst' => exact absurd hst' hst
    | ahead _ _ hv =>
      rw [hv] at hcount
      by_cases hlen : b.length < 8
      · exact .behind (by simp [Walk.take, hlen, hhash]) hcount
      · exact .here (by simp [Walk.take, hlen, hhash]) (by simp [Walk.take, hlen]) rfl hcount
  · rw [count_eq_zero_of_not_mem hp] at hcount
    rw [if_neg hp]
    cases hf with
    | behind hlt hv =>
      refine .behind ?_ (hcount.trans hv)
      dsimp only [Walk.take]
      split <;> omega
    | ahead hle hst hv =>
      refine .ahead ?_ hst (hcount.trans hv)
      dsimp only [Walk.take]
      split
      · next hlen => exact Nat.lt_of_le_of_ne hle fun heq => hfull heq.symm hst hp hlen
      · exact hle
    | here heq _ hst hv =>
      by_cases hlen : b.length < 8
      · exact .behind (by simp [Walk.take, hlen, heq]) (hcount.trans hv)
      · exact .here (by simp [Walk.take, hlen, heq]) (by simp [Walk.take, hlen]) hst (hcount.trans hv)

section

variable (h : Inv s)
include h

theorem Inv.batch (hok : StepOK s (.batch w)) : Inv (step s (.batch w)) := by
  simp only [step]
  split
  · refine ⟨h.nodup, fun v p hp => ?_⟩
    obtain ⟨hin, hf⟩ := h.walks v p hp
    refine ⟨hin, ?_⟩
    dsimp only
    by_cases hv : v = w
    · subst hv
      rw [update_self]
      exact hf.take ((h.nodup.filter _).sublist (take_sublist _ _)) mem_batch (full_batch hin)
    · rw [update_of_ne hv]
      split
      · next hb =>
        -- another walk takes the process
        cases hf with
        | behind hlt hv => exact .behind hlt hv
        | ahead hle _ hv' => exact .ahead hle (hok v hv (Nat.lt_of_le_of_lt hle (procHash_lt p))).1.symm hv'
        | here heq hmid =>
          have hfree := (hok v hv (heq ▸ procHash_lt p)).2 (heq.symm.trans (mem_batch hb).1)
          cases hfree.symm.trans hmid
      · exact hf
  · exact h

theorem Inv.start (hok : StepOK s (.start w)) : Inv (step s (.start w)) := by
  simp only [step]
  split
  · exact h
  · refine ⟨h.nodup, fun v p hp => ?_⟩
    dsimp only at hp ⊢
    by_cases hv : v = w
    · subst hv
      rw [update_self] at hp ⊢
      have hin := of_decide_eq_true hp
      exact ⟨hin, .ahead (Nat.zero_le _) (hok p hin) rfl⟩
    · rw [update_of_ne hv] at hp ⊢
      exact h.walks v p hp

theorem Inv.insert (pid : ℕ) : Inv (step s (.insert pid)) := by
  simp only [step]
  split
  · exact h
  · next hnew =>
    refine ⟨nodup_cons.2 ⟨hnew, h.nodup⟩, fun v p hp => ?_⟩
    obtain ⟨hin, hf⟩ := h.walks v p hp
    have hne : p ≠ pid := fun heq => hnew (heq ▸ hin)
    dsimp only
    rw [update_of_ne hne]
    exact ⟨mem_cons_of_mem _ hin, hf⟩

theorem Inv.remove (pid : ℕ) : Inv (step s (.remove pid)) := by
  refine ⟨h.nodup.erase _, fun v p hp => ?_⟩
  dsimp only [step] at hp
  have hne : p ≠ pid := by
    rintro rfl
    rw [update_self] at hp
    cases hp
  rw [update_of_ne hne] at hp
  obtain ⟨hin, hf⟩ := h.walks v p hp
  exact ⟨(mem_erase_of_ne hne).2 hin, hf⟩

theorem Inv.step (e : Event n) (hok : StepOK s e) : Inv (step s e) := by
  cases e with
  | insert pid => exact h.insert pid
  | remove pid => exact h.remove pid
  | start w => exact h.start hok
  | batch w => exact h.batch hok

theorem Inv.once : Once s := by
  intro w p hend hp
  have hlt := procHash_lt p
  cases (h.walks w p hp).2 with
  | behind _ hv => exact hv
  | ahead hle => omega
  | here heq => omega

end

/-- **A walk visits every process that stays once.** -/
theorem walk_visits_once (n : ℕ) (es : List (Event n)) (hv : Run.Valid step StepOK initial es) :
    Once (Run.final step (initial : State n) es) := by
  have h0 : Inv (initial : State n) := ⟨.nil, fun _ _ hp => by cases hp⟩
  exact (hv.invariant (fun _ e h hok => h.step e hok) h0).once

/-- Nine processes of one bucket. -/
def nine : List (Event 2) := (List.range 9).map fun i => .insert (256 * i + 1)

/-- Walk 0 goes on, to its end. -/
def walkOn : List (Event 2) := List.replicate 257 (.batch 0)

/-- Walk 1 is under way, at the same bucket. -/
theorem walk_visits_once_nine : Once (Run.final step initial (nine ++ [.start 0, .start 1, .batch 1] ++ walkOn)) ∧
      ((Run.final step initial (nine ++ [.start 0, .start 1, .batch 1] ++ walkOn)).walks 0).visited.length = 9 :=
  ⟨walk_visits_once 2 _ (by decide +kernel), by decide +kernel⟩

/-- **Walk 1 takes eight processes while walk 0 is between its batches**: walk 0 visits them again. -/
theorem walks_visit_twice :
    ¬Once (Run.final step initial (nine ++ [.start 0, .batch 0, .batch 0, .start 1, .batch 1, .batch 1] ++ walkOn)) := by
  intro h
  exact absurd (h 0 2049 (by decide +kernel) (by decide +kernel)) (by decide +kernel)

end NeoOS.ProcIter
