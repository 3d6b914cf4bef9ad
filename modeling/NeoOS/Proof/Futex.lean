import NeoOS.Lib.Run
import NeoOS.Lib.Update
import NeoOS.Spec.Futex

/-!
# Futex waits and wakes

A record is linked exactly while its thread waits and no wake has counted it, in the bucket of its
own word. So a wake finds all waiters of the word in one bucket, and the flag it sets decides what
the waiter returns.

* `wakeLoop_spec`: the loop wakes the first waiters of the word, as many as asked for.
* `Inv.step`: the invariant.
* `futex_correct`: every step of every run.
-/

namespace NeoOS.Futex

open List
open Function (forall_update_iff update update_eq_self update_idem update_of_ne update_self)
open Update (mem_update_erase mem_update_push nodup_update)

variable {s : State} {e : Event} {t key val : ℕ} {deadline : Option ℕ} {pending : Bool}

/-! ## Steps -/

/-- The waiters that are linked for a word. -/
def State.waiters (s : State) (key : ℕ) : List ℕ := (s.buckets (bucketFor key)).filter fun t => s.key t = key

/-- The thread is not asleep, or a signal or a tick has taken it off its queue and is about to wake it. -/
def Awake (s : State) (t : ℕ) : Prop := s.status t ≠ .blocked ∨ t ∈ s.removing

/-- The thread sleeps or runs as before, on its queue and linked as before, and no wake has counted it. -/
structure Untouched (s s' : State) (t : ℕ) : Prop where
  status : s'.status t = s.status t
  queued : s'.queued t = s.queued t
  pc : s'.pc t = s.pc t
  woken : s'.woken t = s.woken t
  counted : s'.counted t = s.counted t
  linked : ∀ b, t ∈ s'.buckets b ↔ t ∈ s.buckets b

/-- One step in the state `s`. -/
structure StepOK (s : State) (e : Event) : Prop where
  /-- the waiters of a word are all in its bucket -/
  home : ∀ b, ∀ t ∈ s.buckets b, b = bucketFor (s.key t)
  /-- a wake of `val` wakes that many waiters of the word, or all of them, returns their number, and leaves every other
  thread as it was, asleep and linked if it was -/
  wake : ∀ key val, e = .wake key val → key ≠ 0 → ∃ l : List ℕ, l.Nodup ∧ l.length = min val (s.waiters key).length ∧
    (futexWake key val s).2 = l.length ∧ (∀ t ∈ l, t ∈ s.waiters key ∧ (step s e).counted t ∧ Awake (step s e) t) ∧
    ∀ t, t ∉ l → Untouched s (step s e) t
  /-- what a wake counted stays awake, and returns 0 -/
  awake : ∀ t, (s.pc t).inside → s.counted t → Awake s t
  returns : ∀ t, (s.pc t).inside → ((step s e).pc t).inside = false → s.counted t → (step s e).ret t = 0
  /-- a thread goes to sleep only if the word has the value it expects -/
  sleeps : ∀ t, (s.pc t).inside = false → ((step s e).pc t).inside → ∃ deadline, s.pc t = .entering (s.mem (s.key t)) deadline
  /-- no record is linked outside of its wait -/
  linked : ∀ b, ∀ t ∈ s.buckets b, (s.pc t).inside

/-! ## The loop -/

theorem wakeLoop_spec (keys : ℕ → ℕ) (key val k : ℕ) (l : List ℕ) :
    (wakeLoop keys key val k l).2 = (l.filter fun t => keys t = key).take (val - k) ∧
      ∀ t, l.Nodup → (t ∈ (wakeLoop keys key val k l).1 ↔ t ∈ l ∧ t ∉ (wakeLoop keys key val k l).2) := by
  induction l generalizing k with
  | nil => simp [wakeLoop]
  | cons u l ih =>
    unfold wakeLoop
    by_cases hk : k < val
    · rw [if_pos hk]
      by_cases hu : keys u = key
      · obtain ⟨h1, h2⟩ := ih (k + 1)
        have hsucc : val - k = val - (k + 1) + 1 := by omega
        simp only [hu, ne_eq, not_true_eq_false, if_false]
        constructor
        · rw [h1, filter_cons_of_pos (by simpa using hu), hsucc, take_succ_cons]
        · intro t hnd
          have hrest : t ∈ l ↔ t ≠ u ∧ t ∈ u :: l := by rw [← hnd.mem_erase_iff, erase_cons_head]
          rw [h2 t (nodup_cons.1 hnd).2, hrest, mem_cons (l := (wakeLoop keys key val (k + 1) l).2), not_or,
            and_assoc, and_left_comm]
      · obtain ⟨h1, h2⟩ := ih k
        simp only [hu, ne_eq, not_false_eq_true, if_true]
        constructor
        · rw [h1, filter_cons_of_neg (by simpa using hu)]
        · intro t hnd
          obtain ⟨hul, hnd'⟩ := nodup_cons.1 hnd
          have hu2 : u ∉ (wakeLoop keys key val k l).2 := by
            rw [h1]
            intro hm
            exact hul (mem_of_mem_filter (mem_of_mem_take hm))
          rw [mem_cons, h2 t hnd', mem_cons]
          constructor
          · rintro (rfl | ⟨ht, hn⟩)
            · exact ⟨.inl rfl, hu2⟩
            · exact ⟨.inr ht, hn⟩
          · rintro ⟨rfl | ht, hn⟩
            · exact .inl rfl
            · exact .inr ⟨ht, hn⟩
    · rw [if_neg hk]
      have h0 : val - k = 0 := by omega
      simp [h0]

/-! ## The invariant -/

structure Inv (s : State) : Prop where
  home : ∀ b, ∀ t ∈ s.buckets b, b = bucketFor (s.key t)
  linked : ∀ b, ∀ t ∈ s.buckets b, (s.pc t).inside ∧ s.woken t = false
  nodup : ∀ b, (s.buckets b).Nodup
  entering : ∀ t val deadline, s.pc t = .entering val deadline → s.woken t = false
  counted : ∀ t, s.counted t = s.woken t
  offQueue : ∀ t, s.woken t → s.queued t = false
  blocked : ∀ t, s.status t = .blocked → s.queued t ∨ t ∈ s.removing

theorem Inv.initial (mem : ℕ → ℕ) : Inv (.initial mem) := ⟨nofun, nofun, fun _ => nodup_nil, nofun, fun _ => rfl, nofun, nofun⟩

/-- A record that has just been linked is taken off again. -/
theorem erase_linked (s : State) (t : ℕ) (b : ℕ) : update (update s.buckets b (t :: s.buckets b)) b
      ((update s.buckets b (t :: s.buckets b) b).erase t) = s.buckets := by
  rw [update_self, erase_cons_head, update_idem, update_eq_self]

theorem nodup_wakeLoop (keys : ℕ → ℕ) (key val k : ℕ) {l : List ℕ} (h : l.Nodup) : (wakeLoop keys key val k l).1.Nodup := by
  induction l generalizing k with
  | nil => exact nodup_nil
  | cons u l ih =>
    obtain ⟨hu, hl⟩ := nodup_cons.1 h
    unfold wakeLoop
    split
    · split
      · refine nodup_cons.2 ⟨?_, ih k hl⟩
        intro hm
        exact hu (((wakeLoop_spec keys key val k l).2 u hl).1 hm).1
      · exact ih (k + 1) hl
    · exact h

theorem futexLock_pc (s : State) (t val : ℕ) (deadline : Option ℕ) (pending : Bool) :
    ∃ x : Pc, (futexLock t val deadline pending s).pc = update s.pc t x ∧
      (futexLock t val deadline pending s).key = s.key ∧ (x.inside → s.mem (s.key t) = val) := by
  unfold futexLock
  simp only
  split
  · exact ⟨.out, rfl, rfl, nofun⟩
  rename_i hval
  split
  · exact ⟨.out, rfl, rfl, nofun⟩
  split
  · exact ⟨.out, rfl, rfl, nofun⟩
  · exact ⟨.asleep deadline.isSome, rfl, rfl, fun _ => not_not.1 hval⟩

section

variable (h : Inv s)
include h

theorem Inv.not_linked (ht : (s.pc t).inside = false) (b : ℕ) : t ∉ s.buckets b := by
  intro hm
  rw [(h.linked b t hm).1] at ht
  cases ht

/-- Only the program counter of one thread changes, and it is linked nowhere or stays inside. -/
theorem Inv.setPc {x : Pc} (hx : x.inside = false → ∀ b, t ∉ s.buckets b)
    (he : ∀ val deadline, x ≠ .entering val deadline) (ret : ℕ → ℤ) (dl : ℕ → ℕ) :
    Inv { s with pc := update s.pc t x, ret := ret, sleepDeadline := dl } := by
  have hin : ∀ u b, u ∈ s.buckets b → (update s.pc t x u).inside := by
    rw [forall_update_iff s.pc fun u y => ∀ b, u ∈ s.buckets b → y.inside = true]
    refine ⟨fun b hb => ?_, fun u _ b hu => (h.linked b u hu).1⟩
    by_contra hne
    exact hx (by simpa using hne) b hb
  refine { h with linked := fun b u hu => ⟨hin u b hu, (h.linked b u hu).2⟩, entering := ?_ }
  rw [forall_update_iff s.pc fun u y => ∀ val deadline, y = .entering val deadline → s.woken u = false]
  exact ⟨fun val deadline hy => absurd hy (he val deadline), fun u _ => h.entering u⟩

theorem Inv.futexWait {timeout : Option (ℕ × ℕ)} (hrun : s.status t = .running)
    (hout : s.pc t = .out) : Inv (futexWait t key val timeout s) := by
  have hno := h.not_linked (t := t) (by rw [hout]; rfl)
  have hne : ∀ {b u}, u ∈ s.buckets b → u ≠ t := by
    rintro b u hu rfl
    exact hno b hu
  unfold Futex.futexWait
  split
  · exact { h with }
  · refine ⟨?_, ?_, h.nodup, ?_, ?_, ?_, ?_⟩
    · intro b u hu
      show b = bucketFor (update s.key t key u)
      rw [update_of_ne (hne hu)]
      exact h.home b u hu
    · intro b u hu
      show (update s.pc t _ u).inside ∧ update s.woken t false u = false
      rw [update_of_ne (hne hu), update_of_ne (hne hu)]
      exact h.linked b u hu
    · intro u val' deadline hu
      show update s.woken t false u = false
      by_cases hut : u = t
      · rw [hut, update_self]
      · have hu' : update s.pc t _ u = .entering val' deadline := hu
        rw [update_of_ne hut] at hu' ⊢
        exact h.entering u val' deadline hu'
    · intro u
      rw [show s.counted = s.woken from funext h.counted]
    · intro u hu
      show update s.queued t false u = false
      by_cases hut : u = t
      · rw [hut, update_self]
      · have hu' : update s.woken t false u := hu
        rw [update_of_ne hut] at hu' ⊢
        exact h.offQueue u hu'
    · rw [forall_update_iff s.queued fun u q => s.status u = .blocked → q = true ∨ u ∈ s.removing]
      refine ⟨fun hb => ?_, fun u _ => h.blocked u⟩
      rw [hrun] at hb
      cases hb

theorem Inv.lock (hpc : s.pc t = .entering val deadline) : Inv (futexLock t val deadline pending s) := by
  have hw := h.entering t val deadline hpc
  have hno := h.not_linked (t := t) (by rw [hpc]; rfl)
  have hret : ∀ rc dl, Inv (futexReturn t rc { s with
      buckets := update s.buckets (bucketFor (s.key t)) (t :: s.buckets (bucketFor (s.key t)))
      sleepDeadline := dl }) := by
    intro rc dl
    unfold futexReturn
    simp only [hw, Bool.false_eq_true, if_false, erase_linked]
    exact h.setPc (fun _ => hno) (fun _ _ => Pc.noConfusion) _ _
  unfold futexLock
  simp only
  split
  · exact h.setPc (fun _ => hno) (fun _ _ => Pc.noConfusion) _ _
  split
  · exact hret _ _
  split
  · exact hret _ _
  refine ⟨?_, ?_, nodup_update h.nodup (nodup_cons.2 ⟨hno _, h.nodup _⟩), ?_, h.counted, ?_, ?_⟩
  · intro b u hu
    rcases mem_update_push.1 hu with hu | ⟨rfl, rfl⟩
    · exact h.home b u hu
    · rfl
  · intro b u hu
    show (update s.pc t _ u).inside ∧ s.woken u = false
    rcases mem_update_push.1 hu with hold | ⟨rfl, rfl⟩
    · have hut : u ≠ t := by
        rintro rfl
        exact hno b hold
      rw [update_of_ne hut]
      exact h.linked b u hold
    · rw [update_self]
      exact ⟨rfl, hw⟩
  · rw [forall_update_iff s.pc fun u y => ∀ val deadline, y = .entering val deadline → s.woken u = false]
    exact ⟨nofun, fun u _ => h.entering u⟩
  · rw [forall_update_iff s.queued fun u q => s.woken u = true → q = false]
    refine ⟨fun hu => ?_, fun u _ => h.offQueue u⟩
    rw [hw] at hu
    cases hu
  · intro u hu
    show update s.queued t true u ∨ u ∈ s.removing
    by_cases hut : u = t
    · rw [hut, update_self]
      exact .inl rfl
    · have hu' : update s.status t .blocked u = .blocked := hu
      rw [update_of_ne hut] at hu' ⊢
      exact h.blocked u hu'

theorem Inv.finish (rc : ℤ) (dl : ℕ → ℕ) : Inv (futexReturn t rc { s with sleepDeadline := dl }) := by
  unfold futexReturn
  cases hw : s.woken t with
  | true =>
    refine h.setPc (fun _ b hm => ?_) (fun _ _ => Pc.noConfusion) _ _
    rw [(h.linked b t hm).2] at hw
    cases hw
  | false =>
    simp only [Bool.false_eq_true, if_false]
    have hmem : ∀ {b u}, u ∈ update s.buckets (bucketFor (s.key t)) ((s.buckets (bucketFor (s.key t))).erase t) b →
        u ≠ t ∧ u ∈ s.buckets b := (mem_update_erase (h.nodup _) fun b => h.home b t).1
    refine ⟨?_, ?_, nodup_update h.nodup ((h.nodup _).erase t), ?_, h.counted, h.offQueue, h.blocked⟩
    · intro b u hu
      exact h.home b u (hmem hu).2
    · intro b u hu
      show (update s.pc t .out u).inside ∧ s.woken u = false
      rw [update_of_ne (hmem hu).1]
      exact h.linked b u (hmem hu).2
    · rw [forall_update_iff s.pc fun u y => ∀ val deadline, y = .entering val deadline → s.woken u = false]
      exact ⟨nofun, fun u _ => h.entering u⟩

theorem Inv.mem_kept {b : ℕ}
    (ht : t ∈ update s.buckets (bucketFor key) (wakeLoop s.key key val 0 (s.buckets (bucketFor key))).1 b) :
    t ∈ s.buckets b ∧ t ∉ (wakeLoop s.key key val 0 (s.buckets (bucketFor key))).2 := by
  obtain ⟨h1, h2⟩ := wakeLoop_spec s.key key val 0 (s.buckets (bucketFor key))
  by_cases hb : b = bucketFor key
  · subst hb
    rw [update_self] at ht
    exact (h2 t (h.nodup _)).1 ht
  · rw [update_of_ne hb] at ht
    refine ⟨ht, ?_⟩
    intro hm
    rw [h1] at hm
    have hm' := mem_filter.1 (mem_of_mem_take hm)
    have hk : s.key t = key := by simpa using hm'.2
    exact hb ((h.home b t ht).trans (congrArg bucketFor hk))

theorem Inv.wake (key val : ℕ) : Inv (futexWake key val s).1 := by
  unfold futexWake
  split
  · exact h
  refine ⟨?_, ?_, nodup_update h.nodup (nodup_wakeLoop _ _ _ _ (h.nodup _)), ?_, ?_, ?_, ?_⟩
  · intro b u hu
    exact h.home b u (h.mem_kept hu).1
  · intro b u hu
    obtain ⟨hb, hn⟩ := h.mem_kept hu
    refine ⟨(h.linked b u hb).1, ?_⟩
    simp [(h.linked b u hb).2, hn]
  · intro u val' deadline hu
    have hno := h.not_linked (t := u) (by
      rw [show s.pc u = .entering val' deadline from hu]
      rfl) (bucketFor key)
    have hn : u ∉ (wakeLoop s.key key val 0 (s.buckets (bucketFor key))).2 := by
      rw [(wakeLoop_spec s.key key val 0 _).1]
      intro hm
      exact hno (mem_of_mem_filter (mem_of_mem_take hm))
    simp [h.entering u val' deadline hu, hn]
  · intro u
    simp [h.counted u]
  · intro u hu
    simp only [Bool.or_eq_true, decide_eq_true_eq] at hu
    rcases hu with hu | hu
    · simp [h.offQueue u hu]
    · simp [hu]
  · intro u hu
    simp only at hu ⊢
    split at hu
    · cases hu
    · rename_i hn
      rcases h.blocked u hu with hq | hr
      · left
        simp only [not_and] at hn
        simp only [hq, Bool.true_and, decide_eq_true_eq]
        intro hm
        exact hn hm hq hu
      · exact .inr hr

theorem Inv.setStatus {x : Status} (hx : x ≠ .blocked) : Inv { s with status := update s.status t x } := by
  refine { h with blocked := ?_ }
  rw [forall_update_iff s.status fun u y => y = .blocked → s.queued u = true ∨ u ∈ s.removing]
  exact ⟨fun hb => absurd hb hx, fun u _ => h.blocked u⟩

/-- **Every step keeps the invariant.** -/
theorem Inv.step (e : Event) : Inv (step s e) := by
  cases e with
  | store | time => exact { h with }
  | wait t key val timeout =>
    simp only [Futex.step]
    split
    · rename_i hg
      exact h.futexWait hg.1 hg.2
    · exact h
  | lock t pending =>
    simp only [Futex.step]
    split
    · rename_i hpc
      split
      · exact h.lock hpc
      · exact h
    · exact h
  | resume t pending =>
    simp only [Futex.step]
    split
    · split
      · exact h.setPc (fun hx => Bool.noConfusion hx) (fun _ _ => Pc.noConfusion) _ _
      · exact h
    · exact h
  | finish t =>
    simp only [Futex.step]
    split
    · split
      · exact h.finish _ _
      · exact h
    · exact h
  | wake key val => exact h.wake key val
  | expire t =>
    simp only [Futex.step]
    split
    · exact { h with }
    · exact h
  | remove t =>
    refine { h with offQueue := ?_, blocked := ?_ }
    · refine (forall_update_iff s.queued fun u q => s.woken u = true → q = false).2 ⟨fun _ => rfl, ?_⟩
      exact fun u _ => h.offQueue u
    · refine (forall_update_iff s.queued fun u q => s.status u = .blocked → q = true ∨ u ∈ t :: s.removing).2 ⟨?_, ?_⟩
      · exact fun _ => .inr mem_cons_self
      · exact fun u _ hu => (h.blocked u hu).imp_right (mem_cons_of_mem t)
  | threadWake i =>
    simp only [Futex.step]
    split
    · rename_i t hi
      refine { h with blocked := ?_ }
      intro u hu
      simp only at hu ⊢
      have hold : s.status u = .blocked ∧ u ≠ t := by
        by_cases hut : u = t
        · subst hut
          split at hu
          · rw [update_self] at hu
            cases hu
          · rename_i hne
            exact absurd hu hne
        · split at hu
          · rw [update_of_ne hut] at hu
            exact ⟨hu, hut⟩
          · exact ⟨hu, hut⟩
      rcases h.blocked u hold.1 with hq | hr
      · exact .inl hq
      · right
        obtain ⟨j, hj, hju⟩ := getElem_of_mem hr
        have hji : j ≠ i := by
          rintro rfl
          have hi' := (List.getElem?_eq_some_iff.1 hi).2
          exact hold.2 (hju.symm.trans hi')
        rw [mem_eraseIdx_iff_getElem]
        exact ⟨j, hj, hji, hju⟩
    · exact h
  | run t | preempt t =>
    simp only [Futex.step]
    split
    · exact h.setStatus nofun
    · exact h

/-! ## Every step of every run -/

theorem Inv.awake (hc : s.counted t) : Awake s t := by
  have hq := h.offQueue t (by rw [← h.counted t]; exact hc)
  by_cases hb : s.status t = .blocked
  · rcases h.blocked t hb with hq' | hr
    · rw [hq] at hq'
      cases hq'
    · exact .inr hr
  · exact .inl hb

theorem Inv.wake_counts (val : ℕ) (hkey : key ≠ 0) :
    ∃ l : List ℕ, l.Nodup ∧ l.length = min val (s.waiters key).length ∧ (futexWake key val s).2 = l.length ∧
      (∀ t ∈ l, t ∈ s.waiters key ∧ (futexWake key val s).1.counted t ∧ Awake (futexWake key val s).1 t) ∧
      ∀ t, t ∉ l → Untouched s (futexWake key val s).1 t := by
  obtain ⟨hspec, hkept⟩ := wakeLoop_spec s.key key val 0 (s.buckets (bucketFor key))
  rw [Nat.sub_zero] at hspec
  have hinv := h.wake key val
  unfold futexWake at hinv ⊢
  rw [if_neg hkey] at hinv ⊢
  refine ⟨(wakeLoop s.key key val 0 (s.buckets (bucketFor key))).2, ?_, ?_, rfl, ?_, ?_⟩
  · rw [hspec]
    exact ((h.nodup _).filter _).sublist (take_sublist _ _)
  · rw [hspec, length_take]
    rfl
  · intro t ht
    refine ⟨?_, by simp [ht], hinv.awake (by simp [ht])⟩
    rw [hspec] at ht
    exact mem_of_mem_take ht
  · intro t ht
    refine ⟨by simp [ht], by simp [ht], rfl, by simp [ht], by simp [ht], fun b => ?_⟩
    dsimp only
    by_cases hb : b = bucketFor key
    · rw [hb, update_self, hkept t (h.nodup _)]
      exact and_iff_left ht
    · rw [update_of_ne hb]

end

/-- **What a step does to one thread**: nothing, or a step of its own in `futex_wait`. -/
theorem step_moves (s : State) (e : Event) (t : ℕ) : ((step s e).key t = s.key t ∧ (step s e).pc t = s.pc t) ∨
      (∃ key val timeout, e = .wait t key val timeout ∧ s.pc t = .out ∧ ((step s e).pc t).inside = false) ∨
      (step s e).key t = s.key t ∧
        ((∃ val deadline, s.pc t = .entering val deadline ∧ (((step s e).pc t).inside → s.mem (s.key t) = val)) ∨
          (s.pc t).inside ∧ (((step s e).pc t).inside ∨ (s.woken t → (step s e).ret t = 0))) := by
  cases e with
  | wait u key val timeout =>
    simp only [step]
    split
    · rename_i hg
      unfold futexWait
      split
      · exact .inl ⟨rfl, rfl⟩
      by_cases hut : t = u
      · subst hut
        exact .inr (.inl ⟨key, val, timeout, rfl, hg.2, by simp [Pc.inside]⟩)
      · exact .inl ⟨update_of_ne hut _ _, update_of_ne hut _ _⟩
    · exact .inl ⟨rfl, rfl⟩
  | lock u pending =>
    simp only [step]
    split
    · rename_i val deadline hu
      split
      · obtain ⟨x, hpc, hkey, hx⟩ := futexLock_pc s u val deadline pending
        rw [hpc, hkey]
        by_cases hut : t = u
        · subst hut
          refine .inr (.inr ⟨rfl, .inl ⟨val, deadline, hu, ?_⟩⟩)
          rw [update_self]
          exact hx
        · exact .inl ⟨rfl, update_of_ne hut _ _⟩
      · exact .inl ⟨rfl, rfl⟩
    · exact .inl ⟨rfl, rfl⟩
  | resume u pending =>
    simp only [step]
    split
    · rename_i timed hu
      split
      · by_cases hut : t = u
        · subst hut
          refine .inr (.inr ⟨rfl, .inr ⟨by rw [hu]; rfl, .inl ?_⟩⟩)
          simp [Pc.inside]
        · exact .inl ⟨rfl, update_of_ne hut _ _⟩
      · exact .inl ⟨rfl, rfl⟩
    · exact .inl ⟨rfl, rfl⟩
  | finish u =>
    simp only [step]
    split
    · rename_i timed rc hu
      split
      · by_cases hut : t = u
        · subst hut
          refine .inr (.inr ⟨rfl, .inr ⟨by rw [hu]; rfl, .inr fun hw => ?_⟩⟩)
          simp [futexFinish, futexReturn, hw]
        · exact .inl ⟨rfl, update_of_ne hut _ _⟩
      · exact .inl ⟨rfl, rfl⟩
    · exact .inl ⟨rfl, rfl⟩
  | wake key val =>
    simp only [step, futexWake]
    split <;> exact .inl ⟨rfl, rfl⟩
  | store | time | remove => exact .inl ⟨rfl, rfl⟩
  | expire | threadWake | run | preempt =>
    simp only [step]
    split <;> exact .inl ⟨rfl, rfl⟩

/-- **How a step moves a thread into its wait and out of it**: in with the word as expected, out with 0 if a
wake counted it. -/
theorem step_inside (s : State) (e : Event) (t : ℕ) : ((step s e).pc t).inside = (s.pc t).inside ∨
      ((s.pc t).inside = false ∧ ∃ deadline, s.pc t = .entering (s.mem (s.key t)) deadline) ∨
      ((s.pc t).inside ∧ (s.woken t → (step s e).ret t = 0)) := by
  rcases step_moves s e t with ⟨-, hpc⟩ | ⟨key, val, timeout, -, hout, hin⟩ |
    ⟨-, ⟨val, deadline, hpc, hval⟩ | ⟨hin, hin' | hret⟩⟩
  · exact .inl (congrArg Pc.inside hpc)
  · left
    rw [hin, hout]
    rfl
  · cases hin : ((step s e).pc t).inside with
    | true => exact .inr (.inl ⟨by rw [hpc]; rfl, deadline, by rw [hval hin, hpc]⟩)
    | false =>
      left
      rw [hpc]
      rfl
  · exact .inl (hin'.trans hin.symm)
  · exact .inr (.inr ⟨hin, hret⟩)

/-! ## Runs -/

/-- **Futex correctness**: from every memory, after every sequence of waits, wakes, stores, timeouts and
signals, the next step counts, wakes, sleeps and returns as it should. -/
theorem futex_correct (mem : ℕ → ℕ) (es : List Event) (e : Event) : StepOK (Run.final step (.initial mem) es) e := by
  have hv : Run.Valid step (fun _ _ => True) (.initial mem) es := Run.valid_of_take fun _ _ => trivial
  have h : Inv (Run.final step (.initial mem) es) := hv.invariant (fun s e hI _ => hI.step e) (.initial mem)
  refine ⟨h.home, ?_, ?_, ?_, ?_, ?_⟩
  · rintro key val rfl hkey
    exact h.wake_counts val hkey
  · intro t _ hc
    exact h.awake hc
  · intro t hin hout hc
    rcases step_inside (Run.final step (.initial mem) es) e t with hs | ⟨hf, -⟩ | ⟨-, hr⟩
    · rw [hout, hin] at hs
      cases hs
    · rw [hin] at hf
      cases hf
    · apply hr
      rw [← h.counted t]
      exact hc
  · intro t hin hout
    rcases step_inside (Run.final step (.initial mem) es) e t with hs | ⟨-, hd⟩ | ⟨hf, -⟩
    · rw [hout, hin] at hs
      cases hs
    · exact hd
    · rw [hin] at hf
      cases hf
  · intro b t ht
    exact (h.linked b t ht).1

end NeoOS.Futex
