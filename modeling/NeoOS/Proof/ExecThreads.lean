import NeoOS.Proof.ProcessExit

/-!
# Exec becomes single-threaded

A thread in `exec_reduce_to_one_thread` that has taken its snapshot has every other thread of the process ahead of it
in its list, or that thread has SIGKILL pending or is on its way out. When the count is 1 the others have left, and in
a fair run it gets there.
-/

namespace NeoOS.ThreadGroup

open Trace (script state)

variable {n k : ℕ} {s s' : State n} {t u v : Fin n} {c : Choice n} {e : Event n} {pc : Pc n}

/-! ## The old address space is freed alone -/

/-- Where the old address space is freed, no other thread of the process runs or will run. -/
def FreesAlone (s : State n) : Prop := ∀ t, s.pc t = .execFree → ∀ v, v ≠ t → s.pc v = .gone ∨ s.pc v = .absent

/-! ## The condition -/

/-- The thread has taken its snapshot and is not done with the threads in it. -/
def Pc.reducing : Pc n → Bool
  | .execSolo _ | .execSend .. | .execWait => true
  | _ => false

/-- What is needed of the step of a thread beyond `coreOK`: one `exec` at a time, and not with SIGKILL pending; no new
thread after the snapshot; an array, unless there is no other thread; and nobody who has left the list, or is no longer
counted, is still on a CPU when `exec` looks at it. -/
def State.execOK (s : State n) (t : Fin n) (c : Choice n) : Bool :=
  match s.pc t with
  | .user => decide (c ≠ .exec) || (!s.kill t && decide (∀ v, v ≠ t → (s.pc v).inExec = false))
  | .checked => decide (∀ v, c ≠ .child v) || decide (∀ v, (s.pc v).reducing = false)
  | .reduce => decide (c ≠ .fail) || decide (∀ v, v ≠ t → s.pc v = .gone ∨ s.pc v = .absent)
  | .execSnap => decide (s.others t maxThreads ≠ []) || decide (∀ v, s.pc v ≠ .putLive ∧ s.pc v ≠ .leave)
  | .execWait => decide (1 < s.live) || decide (∀ v, s.pc v ≠ .leave)
  | _ => true

def ExecOK (s : State n) : Event n → Prop
  | .go t c => s.coreOK t c = true ∧ s.execOK t c
  | _ => True

instance (s : State n) (e : Event n) : Decidable (ExecOK s e) :=
  match e with
  | .go _ _ => inferInstanceAs (Decidable (_ ∧ _))
  | .idle | .wake _ | .kill | .stop | .cont => isTrue trivial

theorem ExecOK.core (h : ExecOK s e) : CoreOK s e := by
  cases e with
  | go t c => exact h.1
  | _ => trivial

/-! ## The invariant -/

/-- The thread has `v` ahead in its list. -/
def Pc.marks (v : Fin n) : Pc n → Prop
  | .execSolo rest => v ∈ rest
  | .execSend w rest => v = w ∨ v ∈ rest
  | _ => False

/-- The thread is past the loops. -/
def Pc.single : Pc n → Bool
  | .execSwitch | .execFree => true
  | _ => false

structure ExecInv (s : State n) : Prop where
  core : Core s
  one : ∀ t u, (s.pc t).inExec → (s.pc u).inExec → t = u
  single : ∀ t, (s.pc t).single → ∀ v, v ≠ t → s.pc v = .gone ∨ s.pc v = .absent
  marked : ∀ t, (s.pc t).reducing → ∀ v, v ≠ t → (s.pc v).listed → s.kill v ∨ (s.pc v).dying ∨ (s.pc t).marks v

theorem Pc.inExec_of_reducing (h : pc.reducing) : pc.inExec := by
  cases pc <;> first | rfl | cases h

theorem Pc.inExec_of_single (h : pc.single) : pc.inExec := by
  cases pc <;> first | rfl | cases h

theorem Pc.runnable_of_inExec (h : pc.inExec) : pc.runnable := by
  cases pc <;> first | rfl | cases h

/-- Only a call of `exec` leads into it. -/
theorem Edge.enters {a b : Pc n} (h : Edge s t c a b) (hb : b.inExec) : a.inExec ∨ a = .user ∧ c = .exec := by
  cases h with
  | stay => exact .inl hb
  | start =>
    cases c with
    | exec => exact .inr ⟨rfl, rfl⟩
    | _ => cases hb
  | _ => first | exact .inl rfl | cases hb

/-- A thread that is in `exec` after its step has not created another in it. -/
theorem mem_inExec (ht : ((go t c s).pc t).inExec) (hm : v ∈ (step s (.go t c)).threads) : v ∈ s.threads := by
  rcases mem_step hm with hm | ⟨u, he, hpc⟩
  · exact hm
  · cases he
    rcases edge_go.enters ht with hx | ⟨hx, -⟩
    · rw [hpc] at hx
      cases hx
    · cases hx.symm.trans hpc

theorem mem_reducing (hok : ExecOK s e) (ht : (s.pc t).reducing) (hm : v ∈ (step s e).threads) : v ∈ s.threads := by
  rcases mem_step hm with hm | ⟨u, rfl, hpc⟩
  · exact hm
  · have hx := hok.2
    simp only [State.execOK, hpc, Bool.or_eq_true, decide_eq_true_eq] at hx
    rcases hx with hx | hx
    · exact absurd rfl (hx v)
    · rw [hx t] at ht
      cases ht

theorem mem_single (h : ExecInv s) (ht : (s.pc t).single) (hm : v ∈ (step s e).threads) : v ∈ s.threads := by
  rcases mem_step hm with hm | ⟨u, rfl, hpc⟩
  · exact hm
  · by_cases hut : u = t
    · subst hut
      rw [hpc] at ht
      cases ht
    · rcases h.single t ht u hut with hu | hu <;> cases hu.symm.trans hpc

theorem others_length_le (h : Core s) : (s.threads.filter (· ≠ t)).length ≤ maxThreads :=
  (List.length_filter_le _ _).trans h.length

theorem not_counted (h : Core s) (ht : (s.pc t).counted) (hl : s.live ≤ 1) (hv : v ≠ t) : (s.pc v).counted = false := by
  cases hx : (s.pc v).counted with
  | false => rfl
  | true =>
    rw [h.live] at hl
    exact absurd (Finset.card_le_one.1 hl v (by simp [hx]) t (by simp [ht])) hv

/-- The thread that reaches the switch has left the others behind. -/
theorem ExecInv.single_go (h : ExecInv s) (hok : ExecOK s (.go t c)) (ht : ((go t c s).pc t).single) (hv : v ≠ t) :
    s.pc v = .gone ∨ s.pc v = .absent := by
  have hx : s.execOK t c := hok.2
  have hedge := edge_go (s := s) (t := t) (c := c)
  generalize hpc : s.pc t = a at hedge
  generalize (go t c s).pc t = b at hedge ht
  cases hedge with
  | stay hr =>
    rw [Pc.runnable_of_inExec (Pc.inExec_of_single ht)] at hr
    cases hr
  | start => cases c <;> cases ht
  | noRoom hc =>
    simp only [State.execOK, hpc, Bool.or_eq_true, decide_eq_true_eq] at hx
    exact hx.resolve_left (fun hne => hne hc) v hv
  | single hnil =>
    simp only [State.execOK, hpc, Bool.or_eq_true, decide_eq_true_eq] at hx
    have hgone := hx.resolve_left (fun hne => hne hnil) v
    have hnl : (s.pc v).listed = false := by
      cases hl : (s.pc v).listed with
      | false => rfl
      | true =>
        have hm := mem_others h.core (others_length_le h.core) hl hv
        rw [hnil] at hm
        cases hm
    cases hq : s.pc v with
    | putLive => exact absurd hq hgone.1
    | leave => exact absurd hq hgone.2
    | gone => exact .inl rfl
    | absent => exact .inr rfl
    | _ =>
      rw [hq] at hnl
      cases hnl
  | ends hl =>
    simp only [State.execOK, hpc, Bool.or_eq_true, decide_eq_true_eq] at hx
    have hleft := hx.resolve_left (by omega) v
    have hnc := not_counted h.core (by rw [hpc]; rfl) hl hv
    cases hq : s.pc v with
    | leave => exact absurd hq hleft
    | gone => exact .inl rfl
    | absent => exact .inr rfl
    | _ =>
      rw [hq] at hnc
      cases hnc
  | switches => exact h.single t (by rw [hpc]; rfl) v hv
  | _ => cases ht

theorem kill_sent_solo {vs : List (Fin n)} (hpc : s.pc t = .execSend v vs) : (go t c s).kill v := by
  simp only [go, hpc]
  exact Function.update_self _ _ _

/-- **The other threads after a step of the thread in `exec`**. -/
theorem ExecInv.marked_go (h : ExecInv s) (ht : ((go t c s).pc t).reducing) (hv : v ≠ t) (hl : (s.pc v).listed) :
    (go t c s).kill v ∨ ((go t c s).pc v).dying ∨ ((go t c s).pc t).marks v := by
  -- what held of the thread before the step
  have hkeep : s.kill v = true ∨ (s.pc v).dying = true → (go t c s).kill v = true ∨ ((go t c s).pc v).dying = true ∨
      ((go t c s).pc t).marks v := fun hd => or_assoc.1 (.inl (killed_step (e := .go t c) h.core hd))
  have hold : (s.pc t).reducing = true → (s.pc t).marks v ∨
      ((go t c s).kill v = true ∨ ((go t c s).pc v).dying = true ∨ ((go t c s).pc t).marks v) := by
    intro hr
    rcases or_assoc.2 (h.marked t hr v hv hl) with hd | hm
    · exact .inr (hkeep hd)
    · exact .inl hm
  have hedge := edge_go (s := s) (t := t) (c := c)
  generalize hpc : s.pc t = a at hold hedge
  generalize (go t c s).pc t = b at hkeep hold hedge ht ⊢
  cases hedge with
  | stay hr =>
    rw [Pc.runnable_of_inExec (Pc.inExec_of_reducing ht)] at hr
    cases hr
  | start => cases c <;> cases ht
  | several hrest =>
    have hm := mem_others h.core (others_length_le h.core) hl hv
    rw [hrest] at hm
    exact .inr (.inr hm)
  | skips hz =>
    rcases hold rfl with hm | hx
    · rcases List.mem_cons.1 hm with rfl | hm
      · exact hkeep (.inr (Pc.dying_of_isZombie hz))
      · exact .inr (.inr hm)
    · exact hx
  | marksSolo =>
    rcases hold rfl with hm | hx
    · exact .inr (.inr (List.mem_cons.1 hm))
    · exact hx
  | sends =>
    rcases hold rfl with (rfl | hm) | hx
    · exact .inl (kill_sent_solo hpc)
    · exact .inr (.inr hm)
    · exact hx
  | waits | waitsOn =>
    rcases hold rfl with hm | hx
    · cases hm
    · exact hx
  | _ => cases ht

/-- **Every step keeps the invariant.** -/
theorem ExecInv.step (h : ExecInv s) (hok : ExecOK s e) : ExecInv (step s e) := by
  have hcore := h.core.step hok.core
  -- a thread in `exec` that does not take the step was there before
  have hsame : ∀ {v : Fin n}, e.owner ≠ some v → ((ThreadGroup.step s e).pc v).inExec → (ThreadGroup.step s e).pc v = s.pc v :=
    fun ho hx => (moved_step h.core ho).eq_of Pc.inExec rfl rfl rfl rfl hx
  have hone : ∀ {t u : Fin n}, e.owner = some t → u ≠ t → ((ThreadGroup.step s e).pc t).inExec = true →
      ((ThreadGroup.step s e).pc u).inExec = true → False := by
    intro t u ho hut ht hu
    obtain ⟨c, rfl⟩ := Event.eq_go ho
    have hu' : (s.pc u).inExec := by
      rwa [hsame (fun hx => hut (Option.some.inj hx).symm) hu] at hu
    rcases edge_go.enters ht with ht' | ⟨hpc, hc⟩
    · exact hut (h.one u t hu' ht')
    · have hx := hok.2
      simp only [State.execOK, hpc, hc, ne_eq, not_true_eq_false, decide_false, Bool.false_or, Bool.and_eq_true,
        decide_eq_true_eq] at hx
      rw [hx.2 u hut] at hu'
      cases hu'
  refine ⟨hcore, ?_, ?_, ?_⟩
  · intro t u ht hu
    by_contra htu
    by_cases hto : e.owner = some t
    · exact hone hto (Ne.symm htu) ht hu
    · by_cases huo : e.owner = some u
      · exact hone huo htu hu ht
      · rw [hsame hto ht] at ht
        rw [hsame huo hu] at hu
        exact htu (h.one t u ht hu)
  · intro t ht v hv
    by_cases hto : e.owner = some t
    · obtain ⟨c, rfl⟩ := Event.eq_go hto
      exact away_step h.core hok.core (mem_inExec (Pc.inExec_of_single ht)) (h.single_go hok ht hv)
    · rw [hsame hto (Pc.inExec_of_single ht)] at ht
      exact away_step h.core hok.core (mem_single h ht) (h.single t ht v hv)
  · intro t ht v hv hl
    by_cases hto : e.owner = some t
    · obtain ⟨c, rfl⟩ := Event.eq_go hto
      exact h.marked_go ht hv ((h.core.mem v).1 (mem_inExec (Pc.inExec_of_reducing ht) ((hcore.mem v).2 hl)))
    · have hpc := hsame hto (Pc.inExec_of_reducing ht)
      rw [hpc] at ht ⊢
      have hl₀ := (h.core.mem v).1 (mem_reducing hok ht ((hcore.mem v).2 hl))
      exact or_assoc.1 ((or_assoc.2 (h.marked t ht v hv hl₀)).imp_left (killed_step h.core))

theorem ExecInv.initial (main : Fin n) : ExecInv (State.initial main) := by
  have hne : ∀ (f : Pc n → Bool), f .user = false → f .absent = false → ∀ t, f ((State.initial main).pc t) → False := by
    intro f h1 h2 t ht
    cases (initial_false main h1 h2 t).symm.trans ht
  refine ⟨.initial main, ?_, ?_, ?_⟩
  · exact fun t _ ht => (hne Pc.inExec rfl rfl t ht).elim
  · exact fun t ht => (hne Pc.single rfl rfl t ht).elim
  · exact fun t ht => (hne Pc.reducing rfl rfl t ht).elim

/-! ## Fair runs -/

section Fair

variable {s₀ : State n} {es : ℕ → Event n} (hv : Trace.Valid step ExecOK s₀ es) (hf : Scheduled s₀ es) (h₀ : ExecInv s₀)
include hv h₀

theorem exec_state (k : ℕ) : ExecInv (after s₀ es k) := hv.invariant (fun _ _ h hok => h.step hok) h₀ k

include hf

/-- The other threads leave while `exec` waits for them. -/
theorem others_leave (hwait : ∀ j ≥ k, (after s₀ es j).pc t = .execWait) :
    ∃ j ≥ k, ∀ v, v ≠ t → (after s₀ es j).pc v = .gone ∨ (after s₀ es j).pc v = .absent := by
  have hcore : ∀ (s : State n) e, ExecOK s e → CoreOK s e := fun _ _ hok => hok.core
  have hred : ∀ j ≥ k, ((after s₀ es j).pc t).reducing := by
    intro j hj
    rw [hwait j hj]
    rfl
  refine Trace.eventually_all ?_ ?_
  · intro v i j hi hij haway hvt
    induction j, hij using Nat.le_induction with
    | base => exact haway hvt
    | succ j hj ih =>
      exact away_step (exec_state hv h₀ j).core (hv j).core (mem_reducing (hv j) (hred j (le_trans hi hj))) ih
  · intro v
    by_cases hvt : v = t
    · exact ⟨k, le_refl k, fun h => absurd hvt h⟩
    have hinv := exec_state hv h₀ k
    have hexec : ∀ (s : State n) c, ExecOK s (.go v c) → s.pc v = .user → s.kill v → c ≠ .exec := by
      intro s c hok hpc hk hc
      have hx := hok.2
      simp only [State.execOK, hpc, hc, hk] at hx
      cases hx
    obtain ⟨j, hj, hgone⟩ := leaves hcore hv hf h₀.core hexec fun hl => by
      rcases hinv.marked t (hred k (le_refl k)) v hvt hl with hkill | hd | hm
      · refine .inl ⟨hkill, ?_⟩
        cases hx : ((after s₀ es k).pc v).inExec with
        | false => rfl
        | true => exact absurd (hinv.one v t hx (Pc.inExec_of_reducing (hred k (le_refl k)))) hvt
      · exact .inr hd
      · rw [hwait k (le_refl k)] at hm
        cases hm
    exact ⟨j, hj, fun _ => hgone⟩

/-- **`exec` does not wait for ever.** -/
theorem execWait_ends : ∃ j ≥ k, (after s₀ es j).pc t ≠ .execWait := by
  by_contra hno
  have hwait : ∀ j ≥ k, (after s₀ es j).pc t = .execWait := fun j hj => by
    by_contra hx
    exact hno ⟨j, hj, hx⟩
  obtain ⟨i, hi, haway⟩ := others_leave hv hf h₀ hwait
  -- from then on the thread is the only one that is counted, and it takes a step
  have hstay : ∀ j ≥ i, ∀ v, v ≠ t → (after s₀ es j).pc v = .gone ∨ (after s₀ es j).pc v = .absent := by
    intro j hj v hvt
    induction j, hj using Nat.le_induction with
    | base => exact haway v hvt
    | succ j hj ih =>
      refine away_step (exec_state hv h₀ j).core (hv j).core (mem_reducing (t := t) (hv j) ?_) ih
      rw [hwait j (le_trans hi hj)]
      rfl
  obtain ⟨j, hj, hen⟩ := hf t i
  have hpc := hwait j (le_trans hi hj)
  rcases hen with hen | hen
  · refine absurd ?_ hen
    show ((after s₀ es j).pc t).runnable
    rw [hpc]
    rfl
  have hlive : (after s₀ es j).live ≤ 1 := by
    rw [(exec_state hv h₀ j).core.live, ← Finset.card_singleton t]
    refine Finset.card_le_card fun v hvc => ?_
    by_contra hvt
    rw [Finset.mem_filter] at hvc
    rcases hstay j hj v (fun h => hvt (Finset.mem_singleton.2 h)) with hq | hq <;> rw [hq] at hvc <;> cases hvc.2
  have hnext := hwait (j + 1) (le_trans hi (Nat.le_succ_of_le hj))
  have hstep : after s₀ es (j + 1) = step (after s₀ es j) (es j) := rfl
  rw [hstep] at hnext
  cases hes : es j with
  | go u c =>
    rw [hes] at hen hnext
    cases hen
    simp only [step, go, hpc, if_pos hlive, goto_pc_self] at hnext
    cases hnext
  | _ =>
    rw [hes] at hen
    cases hen

end Fair

/-- **Exec becomes single-threaded**: in a run that meets the condition the old address space is freed only when no other
thread of the process is left, and if threads that may run do so again and again, `exec` does not wait for ever. -/
theorem exec_single_threaded (n : ℕ) (main : Fin n) (es : ℕ → Event n)
    (hv : Trace.Valid step ExecOK (.initial main) es) (k : ℕ) :
    FreesAlone (state step (.initial main) es k) ∧
      (Scheduled (.initial main) es → ∀ t, ∃ j ≥ k, (state step (.initial main) es j).pc t ≠ .execWait) := by
  refine ⟨?_, fun hf t => execWait_ends hv hf (.initial main)⟩
  intro t ht v hvt
  refine (exec_state hv (.initial main) k).single t ?_ v hvt
  rw [ht]
  rfl

/-- Thread 1 sleeps; thread 0 calls `exec`, kills it, waits for it, and goes to sleep in the new image. -/
def execWithSleeper : List (Event 2) :=
  creates 0 1 ++ fallsAsleep 1 ++ [.go 0 .exec] ++ runs 0 6 ++ runs 1 9 ++ runs 0 4 ++ fallsAsleep 0

theorem exec_single_threaded_sleeper :
    FreesAlone (state step (.initial 0) (script execWithSleeper fun _ => .idle) 26) ∧
      ∃ j ≥ 14, (state step (.initial 0) (script execWithSleeper fun _ => .idle) j).pc 0 ≠ .execWait := by
  have hv : Trace.Valid step ExecOK (.initial 0) (script execWithSleeper fun _ => .idle) :=
    valid_script (fun _ => trivial) (by decide)
  refine ⟨(exec_single_threaded 2 0 _ hv 26).1, (exec_single_threaded 2 0 _ hv 14).2 (scheduled_script ?_) 0⟩
  decide

/-- There is no memory for the array in which `exec` lists the other threads. -/
def execNoMemory : List (Event 2) := creates 0 1 ++ [.go 0 .exec, .go 0 .fail] ++ runs 0 1

/-- Thread 1 stops after thread 0 has called `exec`. -/
def execWithStopped : List (Event 2) := creates 0 1 ++ [.go 0 .exec, .stop] ++ runs 1 6 ++ runs 0 6

/-- Threads 0 and 1 call `exec`. -/
def execTwice : List (Event 2) := creates 0 1 ++ [.go 0 .exec, .go 1 .exec] ++ runs 0 6 ++ runs 1 6

/-- A thread that finds the count above 1 waits for ever if nobody else does anything. -/
theorem waits_for_ever {l : List (Event n)} {main : Fin n} (f : ℕ → Fin n)
    (hpc : ∀ k, (Run.final step (.initial main) l).pc (f k) = .execWait) (hlive : 1 < (Run.final step (.initial main) l).live)
    (hrun : ∀ t, ((Run.final step (.initial main) l).pc t).runnable → ∀ k, ∃ j ≥ k, f j = t) :
    Scheduled (.initial main) (script l fun k => .go (f k) .interrupt) ∧ ∀ j ≥ l.length,
      (state step (.initial main) (script l fun k => .go (f k) .interrupt) j).pc (f 0) = .execWait := by
  have hrest : ∀ k, step (Run.final step (.initial main) l) (.go (f k) .interrupt) = Run.final step (.initial main) l := by
    intro k
    simp only [step, go, hpc k, if_neg (Nat.not_le_of_lt hlive)]
  refine ⟨Trace.fair_script hrest ?_, ?_⟩
  · intro t ht k
    obtain ⟨j, hj, htail⟩ := hrun t ht k
    exact ⟨j, hj, congrArg some htail⟩
  · intro j hj
    rw [Trace.state_script_rest hrest hj]
    exact hpc 0

/-- **Exec does not become single-threaded**: without memory for its array it frees the address space under the other
thread, and it waits for ever for a thread that is stopped, and for one that waits for it. -/
theorem exec_keeps_threads : ¬FreesAlone (Run.final step (.initial 0) execNoMemory) ∧
    (Scheduled (.initial 0) (script execWithStopped fun _ => .go 0 .interrupt) ∧ ∀ j ≥ execWithStopped.length,
      (state step (.initial 0) (script execWithStopped fun _ => .go 0 .interrupt) j).pc 0 = .execWait) ∧
    (Scheduled (.initial 0) (script execTwice fun k => .go (Fin.ofNat 2 k) .interrupt) ∧ ∀ j ≥ execTwice.length,
      (state step (.initial 0) (script execTwice fun k => .go (Fin.ofNat 2 k) .interrupt) j).pc 0 = .execWait) := by
  have hends : ∀ k, (Run.final step (.initial 0) execTwice).pc (Fin.ofNat 2 k) = .execWait := fun k => by
    have hall : ∀ t, (Run.final step (.initial 0) execTwice).pc t = .execWait := by decide
    exact hall _
  refine ⟨?_, waits_for_ever (fun _ => 0) ?_ ?_ ?_, waits_for_ever (fun k => Fin.ofNat 2 k) hends ?_ ?_⟩
  · intro h
    have halone := h 0 (by decide) 1 (by decide)
    revert halone
    decide
  · intro _
    decide
  · decide
  · intro t ht k
    refine ⟨k, le_refl k, ?_⟩
    revert t
    decide
  · decide
  · intro t _ k
    refine ⟨2 * k + t.1, by omega, ?_⟩
    apply Fin.ext
    simp only [Fin.ofNat]
    omega

end NeoOS.ThreadGroup
