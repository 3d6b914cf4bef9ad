import NeoOS.Proof.WaitDue
import NeoOS.Spec.Poll

/-!
# The broadcast queue

`waitq_poll_notify` takes some of the threads off the broadcast queue and leaves the others on it, and
`waitq_poll_wake_thread` takes one. Both keep what the wait queues keep: what they take, a waker has.

* `Moves.pollNotify`, `Moves.pollWakeThread`: the two sections.
-/

namespace NeoOS.WaitQueue

open Function (update update_of_ne update_self)
open Links

variable {n : ℕ} {s s' : State n} {t : Fin n} {i q : ℕ} {b : Actor n} {place : Fin n → Place} {timer : Fin n → Timer}

/-! ## A waker that starts with threads in hand -/

/-- **A new waker starts**, and it has every thread that it took. -/
theorem Moves.append (hl : Linking s place) (ht : Timing s timer) (hc : Counting s) (h : s'.actors = s.actors ++ [b])
    (hk : Kept s' place) (hk' : KeptTimers s' timer) (hs : s'.state = s.state) (hsl : s'.sleeps = s.sleeps)
    (hw : s'.wakes = s.wakes)
    (hb : ∀ x ∈ b.took, x.2 ≤ s.sleeps x.1 ∧ Has s' s.actors.length x.1)
    (hq : ∀ t q, place t = .queue (.wait q) → Queued s' q t ∨ (t, s.sleeps t) ∈ b.took) : Moves s s' := by
  refine ⟨?_, fun u _ _ hu => hu.append h hsl, ?_⟩
  · obtain ⟨place', hl', hf⟩ := hk
    obtain ⟨timer', ht', hf'⟩ := hk'
    exact ⟨place', timer', hl', ht', hc.append hl ht h ⟨place', hl', hf⟩ ⟨timer', ht', hf'⟩ hs hsl hw hb⟩
  · intro u q hu
    rcases hq u q ((hl.chains.mem_queue _).1 hu) with hu' | hu'
    · exact .inl hu'
    · refine .inr ⟨s.actors.length, .inr ?_⟩
      rw [took_append h, update_self, hsl]
      exact hu'

end NeoOS.WaitQueue

namespace NeoOS.Poll

open Function (update update_of_ne update_self)
open Links
open WaitQueue (Moves Due Queued Place pc_append view_append)

variable {n : ℕ} {s : WaitQueue.State n} {t : Fin n}

/-- **The section of `waitq_poll_notify`.** -/
theorem moves_pollNotify (hs : WaitQueue.Sound s) (wants : Fin n → Bool) : Moves s (waitqPollNotify wants s) := by
  obtain ⟨place, timer, hl, ht, hc⟩ := hs
  have happ : (waitqPollNotify wants s).actors = s.actors ++ [_] := rfl
  have hnone : ((s.pc s.actors.length).woken, (s.pc s.actors.length).unlinks) = (none, none) := by
    rw [WaitQueue.pc_length]
    rfl
  have hch := hl.chains.sift (.wait broadcast) wants hnone
  have hpc := pc_append happ
  have hlist : ∀ t, t ∈ nodes s.next n (s.queues (.wait broadcast)).head ↔ place t = .queue (.wait broadcast) :=
    fun t => hl.chains.mem_queue _
  have hl' : WaitQueue.Linking (waitqPollNotify wants s)
      (fun t => if place t = .queue (.wait broadcast) ∧ wants t = true then .priv s.actors.length else place t) := by
    refine ⟨?_, ?_, ?_, ?_, ?_, hl.offCpu⟩
    · rw [hpc, WaitQueue.view_update (·.lists) s.pc]
      exact hch
    · intro j t
      rw [view_append WaitQueue.Pc.pushes happ rfl, ← hl.pushing j t]
      by_cases hu : place t = .queue (.wait broadcast) ∧ wants t
      · simp [hu]
      · rw [if_neg hu]
    · intro t q hq
      split at hq
      · cases hq
      · rename_i hne
        refine ⟨(hl.blocked t q hq).1, ?_⟩
        have hbl : (waitqPollNotify wants s).blockedOn t = s.blockedOn t := by
          refine if_neg ?_
          rintro ⟨hmem, hw⟩
          exact hne ⟨(hlist t).1 hmem, hw⟩
        rw [hbl]
        exact (hl.blocked t q hq).2
    · intro t j hj
      split at hj
      · rename_i hu
        exact (hl.blocked t _ hu.1).1
      · exact hl.held t j hj
    · intro t
      show s.state t = .ready ↔ _
      rw [hl.ready t]
      by_cases hu : place t = .queue (.wait broadcast) ∧ wants t
      · simp [hu]
      · simp only [if_neg hu]
  have ht' : WaitQueue.Timing (waitqPollNotify wants s) timer :=
    ht.same rfl rfl (fun _ _ h => h) (view_append WaitQueue.Pc.expired happ rfl) (view_append WaitQueue.Pc.unlists happ rfl)
  refine .append hl ht hc happ ⟨_, hl', WaitQueue.follows_of_priv ?_⟩ ht'.kept rfl rfl rfl ?_ ?_
  · intro j t hj
    simp [hj]
  · intro x hx
    obtain ⟨t, htl, rfl⟩ := List.mem_map.1 hx
    obtain ⟨hmem, hw⟩ := List.mem_filter.1 htl
    refine ⟨le_refl _, ?_⟩
    have hpriv : (fun t => if place t = .queue (.wait broadcast) ∧ wants t = true
      then Place.priv s.actors.length else place t) t =
        .priv s.actors.length := if_pos ⟨(hlist t).1 hmem, hw⟩
    rcases hl'.owes_of_priv hpriv with hw' | hw'
    · exact .inr (.inl hw')
    · exact .inl hw'
  · intro t q hq
    by_cases hu : place t = .queue (.wait broadcast) ∧ wants t
    · right
      exact List.mem_map.2 ⟨t, List.mem_filter.2 ⟨(hlist t).2 hu.1, hu.2⟩, rfl⟩
    · left
      refine (hl'.chains.mem_queue (.wait q)).2 ?_
      rw [if_neg hu]
      exact hq

/-- A waker has every thread of the broadcast queue that wants the broadcast. -/
theorem due_pollNotify {wants : Fin n → Bool} (hq : Queued s broadcast t)
    (hw : wants t) : Due (waitqPollNotify wants s) t := by
  refine ⟨s.actors.length, .inr ?_⟩
  rw [WaitQueue.took_append rfl, update_self]
  exact List.mem_map.2 ⟨t, List.mem_filter.2 ⟨hq, hw⟩, rfl⟩

/-- **The section of `waitq_poll_wake_thread`.** -/
theorem moves_pollWakeThread (hs : WaitQueue.Sound s) {s' : WaitQueue.State n} (h : waitqPollWakeThread t s = some s') :
    Moves s s' ∧ Due s' t ∧ s'.state = s.state ∧ s'.sleep = s.sleep ∧ s'.actors.length = s.actors.length + 1 := by
  unfold waitqPollWakeThread at h
  split at h
  · rename_i hq
    cases h
    refine ⟨?_, ⟨s.actors.length, .inl ?_⟩, rfl, rfl, by simp⟩
    · obtain ⟨place, timer, hl, ht, hc⟩ := hs
      have hpt : place t = .queue (.wait broadcast) := (hl.chains.mem_queue _).1 hq.2
      have hne : ∀ x, place t = x → x = .queue (.wait broadcast) := fun x hx => hx.symm.trans hpt
      refine .append hl ht hc rfl ⟨update place t .free, ?_, ?_⟩ ?_ rfl rfl rfl ?_ ?_
      · apply hl.move
        · show s.state t ≠ .ready
          rw [(hl.blocked t _ hpt).1]
          decide
        · rw [pc_append rfl, WaitQueue.view_update (·.lists) s.pc]
          have hheld : update (fun j => (s.pc j).lists) s.actors.length (none, none) = fun j => (s.pc j).lists := by
            funext j
            by_cases hj : j = s.actors.length
            · subst hj
              rw [update_self, WaitQueue.pc_length]
              rfl
            · rw [update_of_ne hj]
          show WaitQueue.Chains _ _ (update _ _ (none, none)) _
          rw [hheld]
          exact hl.chains.remove hpt
        · exact fun _ _ => rfl
        · exact fun u hu => update_of_ne hu _ _
        · exact fun _ _ => rfl
        · intro j
          rw [view_append WaitQueue.Pc.pushes rfl rfl, ← hl.pushing j t, hpt]
          simp
        · intro j u _
          rw [view_append WaitQueue.Pc.pushes rfl rfl]
      · exact WaitQueue.follows_update fun j hj => Place.noConfusion (hne _ hj)
      · apply WaitQueue.Timing.kept
        exact ht.same rfl rfl (fun _ _ h => h) (view_append WaitQueue.Pc.expired rfl rfl)
          (view_append WaitQueue.Pc.unlists rfl rfl)
      · intro x hx
        rw [List.mem_singleton] at hx
        subst hx
        refine ⟨le_refl _, .inl ?_⟩
        rw [pc_append rfl, update_self]
        rfl
      · intro u q hu
        by_cases hut : u = t
        · subst hut
          exact .inr (List.mem_singleton.2 rfl)
        · left
          refine ((hl.chains.remove hpt).mem_queue (.wait q)).2 ?_
          rw [update_of_ne hut]
          exact hu
    · rw [pc_append rfl, update_self]
      rfl
  · cases h

/-- A thread that sleeps on the broadcast queue and is not found there is in the hands of a waker. -/
theorem due_of_not_found (hs : WaitQueue.Sound s) (h : waitqPollWakeThread t s = none)
    (hd : Queued s broadcast t ∨ Due s t) : Due s t := by
  rcases hd with hq | hd
  · obtain ⟨place, -, hl, -, -⟩ := hs
    unfold waitqPollWakeThread at h
    rw [if_pos ⟨(hl.blocked t _ ((hl.chains.mem_queue _).1 hq)).2, hq⟩] at h
    cases h
  · exact hd

end NeoOS.Poll
