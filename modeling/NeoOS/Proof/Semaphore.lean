import NeoOS.Lib.Update
import NeoOS.Spec.Semaphore

/-!
# Semaphores

While somebody sleeps, the value is at most the number of threads that attend to it: those between the
addition and the wake of a post, and those woken that have not finished their test (`Inv.attended`).
-/

namespace NeoOS.Semaphore

open Function (update)

variable {n : ℕ} {s : State n} {t : Fin n}

theorem goto_pc (s : State n) (t u : Fin n) (pc : Pc) : (s.goto t pc).pc u = if u = t then pc else s.pc u :=
  Function.update_apply ..

/-- The thread is part way through a post, or has been woken and not finished its test of the value: the load
and the compare-exchange. -/
def Pc.attends : Pc → Bool
  | .wake => true
  | .load _ woken | .cas _ _ woken => woken
  | _ => false

/-- The value that a compare-exchange expects is positive. -/
def Pc.positive : Pc → Prop
  | .cas v _ _ | .tryCas v => 0 < v
  | _ => True

/-- What holds in every state: the books balance, and no wakeup is lost. -/
structure Fine (value : ℕ) (s : State n) : Prop where
  balance : s.value = value + s.posts - s.waits
  nonneg : 0 ≤ s.value
  woken : ∀ t, (s.pc t).isAsleep → 0 < s.value → ∃ u, u ≠ t ∧ (s.pc u).attends

/-- No post finds the largest value. -/
def StepOK (s : State n) : Event n → Prop
  | .post _ => s.value < 2 ^ 31 - 1
  | _ => True

instance (s : State n) (e : Event n) : Decidable (StepOK s e) :=
  match e with
  | .post _ => inferInstanceAs (Decidable (_ < _))
  | .wait .. | .trywait _ | .go .. | .interrupt _ | .timeout _ => inferInstanceAs (Decidable True)

def State.attending (s : State n) : ℕ := (Finset.univ.filter fun t => (s.pc t).attends = true).card

structure Inv (value : ℕ) (s : State n) : Prop where
  balance : s.value = value + s.posts - s.waits
  nonneg : 0 ≤ s.value
  positive : ∀ t, (s.pc t).positive
  attended : ∀ t, (s.pc t).isAsleep → s.value ≤ s.attending

variable {value : ℕ}

section Moves

variable (h : Inv value s)
include h

/-- **A thread moves on** and changes the value by `d`, and the count of those that attend to it by no less. -/
theorem Inv.move {s' : State n} (pc : Pc) (hpc : s'.pc = update s.pc t pc)
    (hbal : s'.value = value + s'.posts - s'.waits) (hnn : 0 ≤ s'.value) (hpos : pc.positive)
    (hatt : s'.value = 0 ∨ pc.isAsleep = false ∧ s'.value + (s.pc t).attends.toNat ≤ s.value + pc.attends.toNat) :
    Inv value s' := by
  have hcard : s'.attending + (s.pc t).attends.toNat = s.attending + pc.attends.toNat := by
    unfold State.attending
    rw [hpc]
    exact Update.card_filter Pc.attends s.pc t pc
  refine ⟨hbal, hnn, fun u => ?_, fun u hu => ?_⟩
  · have := h.positive u
    rw [hpc]
    grind [Function.update_apply]
  · rw [hpc] at hu
    rcases hatt with hz | ⟨hne, hle⟩
    · omega
    · have hold := h.attended u (by grind [Function.update_apply])
      omega

theorem Inv.take (hpos : 0 < s.value) : Inv value (s.take t) := by
  refine h.move .out rfl ?_ ?_ trivial (.inr ⟨rfl, ?_⟩)
  · have := h.balance
    simp only [State.take, State.goto]
    omega
  · simp only [State.take, State.goto]
    omega
  · have := (s.pc t).attends.toNat_le
    simp only [State.take, State.goto]
    omega

theorem Inv.goto (pc : Pc) (hpos : pc.positive)
    (hatt : s.value = 0 ∨ pc.isAsleep = false ∧ ((s.pc t).attends → pc.attends)) : Inv value (s.goto t pc) := by
  refine h.move _ rfl h.balance h.nonneg hpos (hatt.imp_right fun ⟨h1, h2⟩ => ⟨h1, ?_⟩)
  have := Bool.toNat_le_toNat h2
  simp only [State.goto]
  omega

theorem Inv.go (t u : Fin n) (fails : Bool) : Inv value (go t u fails s) := by
  have hnn := h.nonneg
  have hpos := h.positive t
  unfold Semaphore.go
  split
  · -- the load: a thread that finds nothing leaves nothing behind
    rename_i hpc
    refine h.goto _ ?_ ?_
    · grind [Pc.positive]
    · grind [Pc.attends, Pc.isAsleep]
  · rename_i v timed woken hpc
    rw [hpc] at hpos
    split
    · rename_i hx
      exact h.take (hx.1 ▸ hpos)
    · refine h.goto _ trivial (.inr ⟨rfl, ?_⟩)
      rw [hpc]
      cases woken <;> exact id
  · rename_i hpc
    refine h.goto _ ?_ ?_
    · grind [Pc.positive]
    · grind [Pc.attends, Pc.isAsleep]
  · rename_i v hpc
    rw [hpc] at hpos
    split
    · rename_i hx
      exact h.take (hx.1 ▸ hpos)
    · refine h.goto _ ?_ (.inr ?_)
      · grind [Pc.positive]
      · grind [Pc.attends, Pc.isAsleep]
  · -- futex_wake: the thread woken attends in the place of the one that posted
    rename_i hpc
    split
    · rename_i timed hu
      have hne : t ≠ u := by
        rintro rfl
        rw [hpc] at hu
        cases hu
      have h1 := Update.card_filter Pc.attends s.pc u (.load timed true)
      have h2 := Update.card_filter Pc.attends (update s.pc u (.load timed true)) t .out
      rw [Function.update_of_ne hne, hpc] at h2
      rw [hu] at h1
      have hatt : ((s.goto u (.load timed true)).goto t .out).attending = s.attending := Nat.add_right_cancel (h2.trans h1)
      refine ⟨h.balance, hnn, fun v => ?_, fun v hv => ?_⟩
      · have := h.positive v
        grind [goto_pc, Pc.positive]
      · rw [hatt]
        exact h.attended v (by grind [goto_pc, Pc.isAsleep])
    · split
      · rename_i hno
        refine ⟨h.balance, hnn, fun v => ?_, fun v hv => ?_⟩
        · have := h.positive v
          grind [goto_pc, Pc.positive]
        · have := hno v
          grind [goto_pc, Pc.isAsleep]
      · exact h
  · exact h

theorem Inv.step {e : Event n} (hok : StepOK s e) : Inv value (step s e) := by
  cases e with
  | trywait t =>
    simp only [Semaphore.step]
    split
    · rename_i hpc
      refine h.goto _ ?_ (.inr ?_)
      · grind [Pc.positive]
      · grind [Pc.attends, Pc.isAsleep]
    · exact h
  | post t =>
    simp only [Semaphore.step]
    split
    · rename_i hpc
      have hb := h.balance
      have hnn := h.nonneg
      have hv : Int.bmod (s.value + 1) (2 ^ 32) = s.value + 1 := by
        have hlt : s.value < 2 ^ 31 - 1 := hok
        refine Int.bmod_eq_of_le ?_ ?_ <;> omega
      refine h.move .wake rfl ?_ ?_ trivial (.inr ⟨rfl, ?_⟩)
      · simp only [State.goto, hv]
        omega
      · simp only [State.goto, hv]
        omega
      · simp only [State.goto, hv, hpc, Pc.attends, Bool.toNat_true, Bool.toNat_false]
        omega
    · exact h
  | go t u fails => exact h.go t u fails
  | interrupt t =>
    simp only [Semaphore.step]
    split
    · exact h.goto _ trivial (.inr ⟨rfl, fun _ => rfl⟩)
    · exact h
  | wait | timeout =>
    simp only [Semaphore.step]
    split
    · rename_i hpc
      refine h.goto _ trivial (.inr ⟨rfl, ?_⟩)
      rw [hpc]
      exact nofun
    · exact h

end Moves

theorem Inv.initial (hv : value < 2 ^ 31) : Inv value (semInit n value) := by
  have hb : Int.bmod (value : ℤ) (2 ^ 32) = value := by
    refine Int.bmod_eq_of_le ?_ ?_ <;> omega
  unfold semInit
  rw [hb]
  refine ⟨?_, Int.natCast_nonneg value, fun _ => trivial, nofun⟩
  simp

theorem Inv.fine (h : Inv value s) : Fine value s := by
  refine ⟨h.balance, h.nonneg, fun t ht hpos => ?_⟩
  have hcard : 0 < s.attending := by
    have := h.attended t ht
    omega
  obtain ⟨u, hu⟩ := Finset.card_pos.1 hcard
  refine ⟨u, ?_, (Finset.mem_filter.1 hu).2⟩
  rintro rfl
  have hx := (Finset.mem_filter.1 hu).2
  cases hpc : s.pc u <;> rw [hpc] at ht hx <;> contradiction

/-- **Every run of a semaphore** in which no post finds the largest value. -/
theorem sem_run (n value : ℕ) (hv : value < 2 ^ 31) (es : List (Event n)) (hok : Run.Valid step StepOK (semInit n value) es) :
    Fine value (Run.final step (semInit n value) es) :=
  (hok.invariant (fun _ _ h hok => h.step hok) (Inv.initial hv)).fine

/-- A thread sleeps, is woken by a post and takes what it finds, and a second post goes to `sem_trywait`. -/
def handOver : List (Event 2) :=
  [.wait 0 true, .go 0 0 false, .go 0 0 false, .post 1, .go 1 0 false, .go 0 0 false, .go 0 0 false, .post 1, .go 1 0 false,
    .trywait 0, .go 0 0 false]

theorem sem_run_handOver : Run.Valid step StepOK (semInit 2 0) handOver ∧
    (Run.final step (semInit 2 0) handOver).waits = 2 ∧ Fine 0 (Run.final step (semInit 2 0) handOver) :=
  ⟨by decide, by decide, sem_run 2 0 (by decide) handOver (by decide)⟩

/-- A post to the largest value succeeds and leaves the smallest. -/
theorem sem_post_overflows : (Run.final step (semInit 1 (2 ^ 31 - 1)) [.post 0, .go 0 0 false]).posts = 1 ∧
    (Run.final step (semInit 1 (2 ^ 31 - 1)) [.post 0, .go 0 0 false]).value = -2 ^ 31 ∧
    ¬ Fine (2 ^ 31 - 1) (Run.final step (semInit 1 (2 ^ 31 - 1)) [.post 0, .go 0 0 false]) := by
  refine ⟨by decide, by decide, fun h => ?_⟩
  have hx : ¬ 0 ≤ (Run.final step (semInit 1 (2 ^ 31 - 1)) [.post 0, .go 0 0 false]).value := by decide
  exact hx h.nonneg

end NeoOS.Semaphore
