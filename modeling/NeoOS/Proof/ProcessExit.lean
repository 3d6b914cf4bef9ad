import NeoOS.Proof.ThreadEnd

/-!
# A killed process ends

Once a process exits, every thread of it has SIGKILL pending, is on its way out, or is ahead in the loop of a thread
in `process_exit`. A SIGKILL to the process is pending until some thread that runs takes it. In a fair run both lead
to the end of all threads.
-/

namespace NeoOS.ThreadGroup

open List
open Trace (script state)

variable {n k : ℕ} {s s' : State n} {t u v : Fin n} {c : Choice n} {e : Event n} {pc : Pc n} {l : List (Fin n)}

/-! ## The condition -/

/-- What is needed of the step of a thread beyond `coreOK`: no call of `exec`, no new thread once the process exits,
no sleep, no way back to it and no stop with a SIGKILL pending for the process, an array that has room for all the other
threads, and no thread that leaves with the SIGKILL for the process still pending. -/
def State.killOK (s : State n) (t : Fin n) (c : Choice n) : Bool :=
  match s.pc t with
  | .user => decide (c ≠ .exec)
  | .checked => !s.exiting || decide (∀ v, c ≠ .child v)
  | .sleep => !s.procKill || decide (c ≠ .sleep)
  | .commit => !s.procKill
  | .ret => !s.procKill || decide (s.next t ≠ some .stop)
  | .stopCommit => !s.stopping t || !s.procKill
  | .exitSnap cap _ => decide ((s.threads.filter (· ≠ t)).length < cap)
  | .zombie => !s.procKill || s.exiting
  | _ => true

def KillOK (s : State n) : Event n → Prop
  | .go t c => s.coreOK t c = true ∧ s.killOK t c
  -- the thread that a SIGKILL to the process is given to can take it
  | .kill => ∀ t ∈ target s.pc s.threads, s.pc t ≠ .stopped ∧ s.pc t ≠ .unlink
  | _ => True

instance (s : State n) (e : Event n) : Decidable (KillOK s e) :=
  match e with
  | .go _ _ => inferInstanceAs (Decidable (_ ∧ _))
  | .kill => inferInstanceAs (Decidable (∀ t ∈ target s.pc s.threads, _))
  | .idle | .wake _ | .stop | .cont => isTrue trivial

theorem KillOK.core (h : KillOK s e) : CoreOK s e := by
  cases e with
  | go t c => exact h.1
  | _ => trivial

theorem KillOK.noExec (hok : KillOK s (.go t c)) (hpc : s.pc t = .user) : c ≠ .exec := by
  have hk := hok.2
  simp only [State.killOK, hpc] at hk
  exact of_decide_eq_true hk

/-! ## The invariant -/

/-- The thread kills the others. -/
def Pc.hunting : Pc n → Bool
  | .exitAlloc | .exitSnap .. | .exitKill .. => true
  | _ => false

/-- The loop of `process_exit` has `t` ahead. -/
def Pc.hunts (t : Fin n) : Pc n → Prop
  | .exitAlloc | .exitSnap .. => True
  | .exitKill _ _ _ rest => t ∈ rest
  | _ => False

theorem Pc.runnable_of_hunts (h : pc.hunts t) : pc.runnable := by
  cases pc <;> first | rfl | cases h

structure KillInv (s : State n) : Prop where
  core : Core s
  noExec : ∀ t, (s.pc t).inExec = false
  solo : ∀ t, s.soloKill t = false
  hunter : ∀ t, (s.pc t).hunting → s.exiting
  hunted : s.exiting → ∀ t, (s.pc t).listed → s.kill t ∨ (s.pc t).dying ∨ ∃ u, (s.pc u).hunts t
  alert : s.procKill → s.exiting = false → s.threads = [] ∨ ∃ t, (s.pc t).alert

section
variable {a b : Pc n} (h : Edge s t c a b)
include h

theorem Edge.inExec (ha : a.inExec = false) (hc : a = .user → c ≠ .exec) : b.inExec = false := by
  cases h with
  | stay => exact ha
  | start =>
    cases c with
    | exec => exact (hc rfl rfl).elim
    | _ => rfl
  | _ => first | rfl | cases ha

theorem Edge.hunting (hb : b.hunting) : a.hunting ∨ a = .exitSet := by
  cases h with
  | stay => exact .inl hb
  | start => cases c <;> cases hb
  | sets => exact .inr rfl
  | _ => first | exact .inl rfl | cases hb

end

/-- No thread is created any more. -/
def Closed (s : State n) : Prop := s.exiting = true ∨ s.threads = []

/-- No thread joins a process that exits, or that has none left. -/
theorem mem_of_step (h : Core s) (hok : KillOK s e) (hcl : Closed s) (hm : v ∈ (step s e).threads) : v ∈ s.threads := by
  rcases mem_step hm with hm | ⟨t, rfl, hpc⟩
  · exact hm
  · rcases hcl with hex | hnil
    · have hx := hok.2
      simp only [State.killOK, hpc, hex] at hx
      exact absurd rfl ((of_decide_eq_true hx) v)
    · have ht := (h.mem t).2 (by rw [hpc]; rfl)
      rw [hnil] at ht
      cases ht

theorem exiting_step (hx : s.exiting) : (step s e).exiting := by
  cases e with
  | go t c =>
    show (go t c s).exiting
    rw [goFrame_go.exiting, hx]
    rfl
  | _ => exact hx

theorem closed_step (h : Core s) (hok : KillOK s e) (hcl : Closed s) : Closed (step s e) := by
  rcases hcl with hex | hnil
  · exact .inl (exiting_step hex)
  · refine .inr (eq_nil_iff_forall_not_mem.2 fun v hv => ?_)
    have hm := mem_of_step h hok (.inr hnil) hv
    rw [hnil] at hm
    cases hm

theorem kill_sent {cap left nv : ℕ} {ws : List (Fin n)} (hpc : s.pc t = .exitKill cap left nv (v :: ws))
    (hz : (s.pc v).isZombie = false) :
    (go t c s).kill v := by
  simp only [go, hpc, hz]
  exact Function.update_self _ _ _

/-- **Every thread of a process that exits is killed**: the steps keep it so. -/
theorem KillInv.hunted_step (h : KillInv s) (hok : KillOK s e) (hex : s.exiting) (hl : ((step s e).pc v).listed) :
    (step s e).kill v ∨ ((step s e).pc v).dying ∨ ∃ u, ((step s e).pc u).hunts v := by
  have hc' := h.core.step hok.core
  have hl₀ : (s.pc v).listed := (h.core.mem v).1 (mem_of_step h.core hok (.inl hex) ((hc'.mem v).2 hl))
  rcases or_assoc.2 (h.hunted hex v hl₀) with hd | ⟨u, hu⟩
  · exact or_assoc.1 (.inl (killed_step h.core hd))
  · by_cases ho : e.owner = some u
    · obtain ⟨c, rfl⟩ := Event.eq_go ho
      have hkok : s.killOK u c := hok.2
      have hahead : ((go u c s).pc u).hunts v → ∃ w, ((step s (.go u c)).pc w).hunts v := fun hh => ⟨u, hh⟩
      -- who is in the list when the snapshot is taken
      have hsnap : ∀ {cap left}, s.pc u = .exitSnap cap left → (s.pc v).dying ∨ v ∈ s.others u cap := by
        intro cap left hpc
        by_cases hvu : v = u
        · subst hvu
          rw [hpc]
          exact .inl rfl
        · simp only [State.killOK, hpc] at hkok
          exact .inr (mem_others h.core (of_decide_eq_true hkok).le hl₀ hvu)
      have hedge := edge_go (s := s) (t := u) (c := c)
      generalize hpc : s.pc u = a at hu hedge
      generalize (go u c s).pc u = b at hedge hahead
      cases hedge with
      | stay hr =>
        rw [Pc.runnable_of_hunts hu] at hr
        cases hr
      | room => exact .inr (.inr (hahead trivial))
      | alone hnil =>
        rcases hsnap hpc with hd | hmem
        · exact .inr (.inl (dying_step h.core hd))
        · rw [hnil] at hmem
          cases hmem
      | round hrest =>
        rcases hsnap hpc with hd | hmem
        · exact .inr (.inl (dying_step h.core hd))
        · rw [hrest] at hmem
          exact .inr (.inr (hahead hmem))
      | kills =>
        rcases mem_cons.1 hu with rfl | hw
        · cases hz : (s.pc v).isZombie with
          | true => exact .inr (.inl (dying_step h.core (Pc.dying_of_isZombie hz)))
          | false => exact .inl (kill_sent hpc hz)
        · exact .inr (.inr (hahead hw))
      | _ => cases hu
    · refine .inr (.inr ⟨u, ?_⟩)
      rw [(moved_step h.core ho).eq_of_runnable (Pc.runnable_of_hunts hu)]
      exact hu

/-! ## A signal for the process -/

theorem mem_of_target {pc : Fin n → Pc n} (h : target pc l = some t) : t ∈ l := by
  induction l with
  | nil => cases h
  | cons u us ih =>
    unfold target at h
    split at h
    · cases hu : target pc us with
      | none =>
        rw [hu] at h
        cases h
        exact mem_cons_self
      | some w =>
        rw [hu] at h
        cases h
        exact mem_cons_of_mem _ (ih hu)
    · cases h
      exact mem_cons_self

theorem target_eq_none {pc : Fin n → Pc n} (h : target pc l = none) : l = [] := by
  cases l with
  | nil => rfl
  | cons u us =>
    unfold target at h
    split at h <;> cases h

theorem Pc.alert_of_listed (h : pc.listed) (hx : pc.inExec = false) (hh : pc.hunting = false) :
    pc.alert ∨ pc = .fresh ∨ pc = .blocked ∨ pc = .stopped ∨ pc = .unlink := by
  cases pc with
  | take sig => cases sig <;> exact .inl rfl
  | absent | putLive | leave | gone => cases h
  | fresh => exact .inr (.inl rfl)
  | blocked => exact .inr (.inr (.inl rfl))
  | stopped => exact .inr (.inr (.inr (.inl rfl)))
  | unlink => exact .inr (.inr (.inr (.inr rfl)))
  | exitAlloc | exitSnap | exitKill => cases hh
  | _ => first | exact .inl rfl | cases hx

/-- SIGKILL to the process: a thread that runs has it to take. -/
theorem KillInv.alert_kill (h : KillInv s) (hok : KillOK s .kill) (hex : s.exiting = false) :
    s.threads = [] ∨ ∃ t, (s.wakeTarget t).alert := by
  cases ht : target s.pc s.threads with
  | none => exact .inl (target_eq_none ht)
  | some t =>
    right
    obtain ⟨h1, h2⟩ := hok t ht
    have hl := (h.core.mem t).1 (mem_of_target ht)
    have hh : (s.pc t).hunting = false := by
      cases hx : (s.pc t).hunting with
      | false => rfl
      | true =>
        rw [h.hunter t hx] at hex
        cases hex
    have hwake : s.wakeTarget = wake s.pc t := by
      unfold State.wakeTarget
      rw [ht]
    rcases Pc.alert_of_listed hl (h.noExec t) hh with ha | hf | hb | hs | hu
    · refine ⟨t, ?_⟩
      rw [hwake]
      unfold wake
      split
      · rw [Function.update_self]
        rfl
      · exact ha
    · -- the thread that creates it runs
      obtain ⟨u, hb⟩ := h.core.fresh t hf
      refine ⟨u, ?_⟩
      rw [(roused_wakeTarget (s := s) u).eq_of_runnable (by rw [hb]; rfl), hb]
      rfl
    · refine ⟨t, ?_⟩
      rw [hwake]
      unfold wake
      rw [if_pos hb, Function.update_self]
      rfl
    · exact absurd hs h1
    · exact absurd hu h2

theorem next_ne_none (h : s.procKill) : s.next t ≠ none := by
  unfold State.next
  rw [h]
  split
  · nofun
  · split <;> nofun

theorem next_eq_kill (h : s.next t ≠ none) (hs : s.next t ≠ some .stop) : s.next t = some .kill := by
  cases hn : s.next t with
  | none => exact absurd hn h
  | some sig =>
    cases sig with
    | kill => rfl
    | stop => exact absurd hn hs

/-- A thread that runs while SIGKILL is pending for the process is nearer to taking it after each step. -/
theorem alert_working (hok : KillOK s (.go t c)) (hp : s.procKill) (hw : (s.pc t).working) :
    ((go t c s).pc t).alert ∧ ((go t c s).pc t).rank < (s.pc t).rank := by
  have hk : s.killOK t c := hok.2
  refine edge_go.working hw ?_ (fun hpc => ⟨next_ne_none hp, ?_⟩) ?_ ?_ hok.noExec
  · intro hpc
    simp only [State.killOK, hpc, hp] at hk
    exact next_eq_kill (next_ne_none hp) (of_decide_eq_true hk)
  · simp only [State.killOK, hpc, hp] at hk
    exact of_decide_eq_true hk
  · intro hpc
    simp only [State.killOK, hpc, hp] at hk
    cases hk
  · intro hpc
    simp only [State.killOK, hpc, hp] at hk
    simpa using hk

/-- The thread is about to start the exit of the process. -/
def Pc.ending : Pc n → Bool
  | .take .kill | .deliverKill | .exit | .exitSet => true
  | _ => false

theorem Pc.alert_cases (h : pc.alert) : pc.working ∨ pc.ending ∨ pc = .zombie := by
  cases pc with
  | take sig => cases sig <;> simp [Pc.working, Pc.ending]
  | zombie => exact .inr (.inr rfl)
  | _ => first | exact .inl h | exact .inr (.inl rfl)

theorem Pc.alert_of_ending (h : pc.ending) : pc.alert := by
  cases pc with
  | take sig => cases sig <;> rfl
  | _ => first | rfl | cases h

theorem Pc.runnable_of_alert (h : pc.alert) : pc.runnable := by
  cases pc <;> first | rfl | cases h

theorem Edge.ending {a b : Pc n} (h : Edge s t c a b) (ha : a.ending) (hs : s.soloKill t = false) (hex : s.exiting = false)
    (hne : a ≠ .exitSet) : b.ending ∧ b.rank < a.rank := by
  cases h with
  | stay h =>
    rw [Pc.runnable_of_alert (Pc.alert_of_ending ha)] at h
    cases h
  | solo h => cases h.symm.trans hs
  | joins h => cases h.symm.trans hex
  | takeKill | terminate | first => exact ⟨rfl, by simp only [Pc.rank]; omega⟩
  | sets => exact absurd rfl hne
  | _ => cases ha

/-- While SIGKILL is pending for the process there is a thread that runs and can take it. -/
theorem KillInv.alert_step (h : KillInv s) (hok : KillOK s e) (hp : (step s e).procKill) (hex : (step s e).exiting = false) :
    (step s e).threads = [] ∨ ∃ t, ((step s e).pc t).alert := by
  -- a thread that runs stays one unless it takes the step itself
  have hkeep : ∀ {t : Fin n}, (s.pc t).alert → e.owner ≠ some t → ∃ t, ((step s e).pc t).alert := by
    intro t ha ho
    refine ⟨t, ?_⟩
    rw [(moved_step h.core ho).eq_of_runnable (Pc.runnable_of_alert ha)]
    exact ha
  cases e with
  | kill => exact h.alert_kill hok hex
  | go t c =>
    have hfr := goFrame_go (s := s) (t := t) (c := c)
    have hp₀ : s.procKill := by
      rcases hfr.procKill with hq | ⟨-, hq⟩
      · exact hq ▸ hp
      · cases hq.symm.trans hp
    have hex' : (go t c s).exiting = false := hex
    rw [hfr.exiting, Bool.or_eq_false_iff] at hex'
    rcases h.alert hp₀ hex'.1 with hnil | ⟨u, ha⟩
    · left
      refine (closed_step h.core hok (.inr hnil)).resolve_left ?_
      rw [hex]
      nofun
    · right
      by_cases ho : t = u
      · subst ho
        refine ⟨t, ?_⟩
        rcases Pc.alert_cases ha with hw | he | hz
        · exact (alert_working hok hp₀ hw).1
        · have hne : s.pc t ≠ .exitSet := of_decide_eq_false hex'.2
          exact Pc.alert_of_ending (edge_go.ending he (h.solo t) hex'.1 hne).1
        · have hk : s.killOK t c := hok.2
          simp only [State.killOK, hz, hp₀, hex'.1] at hk
          cases hk
      · exact hkeep ha fun hx => ho (Option.some.inj hx)
  | idle | wake t | stop | cont => exact (h.alert hp hex).imp_right fun ⟨t, ha⟩ => hkeep ha nofun

theorem procKill_step (hp : s.procKill) (hne : ∀ t, s.pc t ≠ .take .kill) : (step s e).procKill := by
  cases e with
  | go t c =>
    rcases (goFrame_go (s := s) (t := t) (c := c)).procKill with hq | ⟨hq, -⟩
    · exact hq.trans hp
    · exact absurd hq (hne t)
  | kill => rfl
  | _ => exact hp

/-- **Every step keeps the invariant.** -/
theorem KillInv.step (h : KillInv s) (hok : KillOK s e) : KillInv (step s e) := by
  refine ⟨h.core.step hok.core, ?_, ?_, ?_, ?_, fun hp hex => h.alert_step hok hp hex⟩
  · intro v
    by_cases ho : e.owner = some v
    · obtain ⟨c, rfl⟩ := Event.eq_go ho
      exact edge_go.inExec (h.noExec v) hok.noExec
    · cases hx : ((ThreadGroup.step s e).pc v).inExec with
      | false => rfl
      | true =>
        rw [(moved_step h.core ho).eq_of Pc.inExec rfl rfl rfl rfl hx, h.noExec v] at hx
        cases hx
  · intro v
    cases e with
    | go t c =>
      show (ThreadGroup.go t c s).soloKill v = false
      rw [goFrame_go.soloKill (h.noExec t)]
      exact h.solo v
    | _ => exact h.solo v
  · intro v hv
    by_cases ho : e.owner = some v
    · obtain ⟨c, rfl⟩ := Event.eq_go ho
      rcases edge_go.hunting hv with hh | hset
      · exact exiting_step (h.hunter v hh)
      · show (ThreadGroup.go v c s).exiting = true
        rw [goFrame_go.exiting, decide_eq_true hset, Bool.or_true]
    · rw [(moved_step h.core ho).eq_of Pc.hunting rfl rfl rfl rfl hv] at hv
      exact exiting_step (h.hunter v hv)
  · intro hex v hl
    by_cases hx : s.exiting
    · exact h.hunted_step hok hx hl
    · -- the flag has just been set, by a thread that goes on to kill the others
      right
      right
      cases e with
      | go t c =>
        have hex' : (ThreadGroup.go t c s).exiting := hex
        rw [goFrame_go.exiting, Bool.or_eq_true] at hex'
        have hset : s.pc t = .exitSet := of_decide_eq_true (hex'.resolve_left hx)
        refine ⟨t, ?_⟩
        simp only [ThreadGroup.step, ThreadGroup.go, hset, goto_pc_self]
        trivial
      | _ => exact absurd hex hx

theorem KillInv.initial (main : Fin n) : KillInv (.initial main) := by
  refine ⟨.initial main, initial_false main rfl rfl, fun _ => rfl, ?_, nofun, nofun⟩
  intro t ht
  cases (initial_false main (f := Pc.hunting) rfl rfl t).symm.trans ht

/-- The thread kills the others, or is about to. -/
def Pc.huntish : Pc n → Bool
  | .exitSet => true
  | pc => pc.hunting

theorem Pc.huntish_of_hunts (h : pc.hunts t) : pc.huntish := by
  cases pc <;> first | rfl | cases h

theorem Pc.dying_of_huntish (h : pc.huntish) : pc.dying := by
  cases pc <;> first | rfl | cases h

theorem Edge.huntish {a b : Pc n} (h : Edge s t c a b) (hex : s.exiting) (hb : b.huntish) : a.huntish := by
  cases h with
  | stay => exact hb
  | start => cases c <;> cases hb
  | first hx => cases hx.symm.trans hex
  | _ => first | rfl | cases hb

/-- Nobody starts to kill the others once the process exits. -/
theorem KillInv.calm (h : KillInv s) (hex : s.exiting) (hc : (s.pc v).huntish = false) :
    ((ThreadGroup.step s e).pc v).huntish = false := by
  cases hx : ((ThreadGroup.step s e).pc v).huntish with
  | false => rfl
  | true =>
    by_cases ho : e.owner = some v
    · obtain ⟨c, rfl⟩ := Event.eq_go ho
      rw [edge_go.huntish hex hx] at hc
      cases hc
    · rw [(moved_step h.core ho).eq_of Pc.huntish rfl rfl rfl rfl hx, hc] at hx
      cases hx

/-! ## Fair runs -/

/-- Every thread has come to its end, and the process is a zombie. -/
def Ended (s : State n) : Prop := s.dead = true ∧ ∀ t, s.pc t = .gone ∨ s.pc t = .absent

section Fair

variable {s₀ : State n} {es : ℕ → Event n} (hv : Trace.Valid step KillOK s₀ es) (hf : Scheduled s₀ es) (h₀ : KillInv s₀)
include hv h₀

theorem kill_state (k : ℕ) : KillInv (after s₀ es k) := hv.invariant (fun _ _ h hok => h.step hok) h₀ k

include hf

/-- A thread that is about to start the exit of the process does so. -/
theorem ending_exiting (hk : ((after s₀ es k).pc t).ending) : ∃ j ≥ k, (after s₀ es j).exiting := by
  refine Trace.progress (P := fun s => KillInv s ∧ (s.pc t).ending = true) (Q := fun s => s.exiting = true)
    (fun s => (s.pc t).rank) t hv hf ?_ ?_ ?_ ⟨kill_state hv h₀ k, hk⟩
  · exact fun s hs _ => Pc.runnable_of_alert (Pc.alert_of_ending hs.2)
  · rintro s e ⟨h, he⟩ - hok ho
    have hsame := (moved_step h.core ho).eq_of_runnable (Pc.runnable_of_alert (Pc.alert_of_ending he))
    refine .inr ⟨⟨h.step hok, ?_⟩, ?_⟩
    · rw [hsame]
      exact he
    · rw [hsame]
  · rintro s e ⟨h, he⟩ hex hok ho
    obtain ⟨c, rfl⟩ := Event.eq_go ho
    by_cases hset : s.pc t = .exitSet
    · left
      show (go t c s).exiting
      rw [goFrame_go.exiting, decide_eq_true hset, Bool.or_true]
    · obtain ⟨h1, h2⟩ := (edge_go (c := c)).ending he (h.solo t) (Bool.eq_false_iff.2 hex) hset
      exact .inr ⟨⟨h.step hok, h1⟩, h2⟩

/-- A SIGKILL that is pending for the process is taken. -/
theorem procKill_ending (hp : (after s₀ es k).procKill) (ha : ((after s₀ es k).pc t).alert) :
    ∃ j ≥ k, (after s₀ es j).exiting ∨ ∃ u, ((after s₀ es j).pc u).ending := by
  refine Trace.progress (P := fun s => KillInv s ∧ s.procKill = true ∧ (s.pc t).alert = true)
    (Q := fun s => s.exiting = true ∨ ∃ u, (s.pc u).ending = true) (fun s => (s.pc t).rank) t hv hf ?_ ?_ ?_
    ⟨kill_state hv h₀ k, hp, ha⟩
  · exact fun s hs _ => Pc.runnable_of_alert hs.2.2
  · rintro s e ⟨h, hpk, hal⟩ hq hok ho
    have hsame := (moved_step h.core ho).eq_of_runnable (Pc.runnable_of_alert hal)
    refine .inr ⟨⟨h.step hok, procKill_step hpk fun u hu => hq (.inr ⟨u, by rw [hu]; rfl⟩), ?_⟩, ?_⟩
    · rw [hsame]
      exact hal
    · rw [hsame]
  · rintro s e ⟨h, hpk, hal⟩ hq hok ho
    have hpk' := procKill_step (e := e) hpk fun u hu => hq (.inr ⟨u, by rw [hu]; rfl⟩)
    obtain ⟨c, rfl⟩ := Event.eq_go ho
    rcases Pc.alert_cases hal with hw | he | hz
    · obtain ⟨h1, h2⟩ := alert_working hok hpk hw
      exact .inr ⟨⟨h.step hok, hpk', h1⟩, h2⟩
    · exact absurd (.inr ⟨t, he⟩) hq
    · have hk : s.killOK t c := hok.2
      have hex : s.exiting = false := Bool.eq_false_iff.2 fun hx => hq (.inl hx)
      simp only [State.killOK, hz, hpk, hex] at hk
      cases hk

/-- All threads come to their end once they have SIGKILL or are on their way out, and no new one joins them. -/
theorem all_end {i : ℕ} (hcl : Closed (after s₀ es i)) (hall : ∀ t, ((after s₀ es i).pc t).listed →
      (after s₀ es i).kill t ∨ ((after s₀ es i).pc t).dying) : ∃ j ≥ i, Ended (after s₀ es j) := by
  have hcore : ∀ (s : State n) e, KillOK s e → CoreOK s e := fun _ _ hok => hok.core
  have hinv := kill_state hv h₀ i
  obtain ⟨j, hj, hend⟩ : ∃ j ≥ i, ∀ t, (after s₀ es j).pc t = .gone ∨ (after s₀ es j).pc t = .absent := by
    refine Trace.eventually_all ?_ ?_
    · intro t a b ha hab hpc
      have hcla : Closed (after s₀ es a) :=
        (hv.stable (I := fun s => KillInv s ∧ Closed s) (fun s e hs hok => ⟨hs.1.step hok, closed_step hs.1.core hok hs.2⟩)
          ⟨hinv, hcl⟩ ha).2
      exact (hv.stable (I := fun s => KillInv s ∧ Closed s ∧ (s.pc t = .gone ∨ s.pc t = .absent))
        (fun s e hs hok => ⟨hs.1.step hok, closed_step hs.1.core hok hs.2.1,
          away_step hs.1.core hok.core (mem_of_step hs.1.core hok hs.2.1) hs.2.2⟩)
        ⟨kill_state hv h₀ a, hcla, hpc⟩ hab).2.2
    · intro t
      exact leaves hcore hv hf h₀.core (fun s c hok hpc _ => hok.noExec hpc) fun hl => (hall t hl).imp_left fun hk =>
        ⟨hk, hinv.noExec t⟩
  refine ⟨j, hj, ?_, hend⟩
  -- nobody is counted any more
  refine (kill_state hv h₀ j).core.dead ?_
  rw [(kill_state hv h₀ j).core.live, Finset.card_eq_zero, Finset.filter_eq_empty_iff]
  intro t _
  rcases hend t with ht | ht <;> rw [ht] <;> nofun

/-- **A process that exits comes to its end.** -/
theorem exiting_ends (hk : (after s₀ es k).exiting) : ∃ j ≥ k, Ended (after s₀ es j) := by
  have hexit : ∀ i, k ≤ i → (after s₀ es i).exiting :=
    fun i hi => hv.stable (I := fun s => s.exiting = true) (fun _ _ hx _ => exiting_step hx) hk hi
  -- the threads that kill the others come to an end, and no other starts
  obtain ⟨i, hi, hcalm⟩ : ∃ i ≥ k, ∀ t, ((after s₀ es i).pc t).huntish = false := by
    refine Trace.eventually_all ?_ ?_
    · intro t i j hi hij hcalm
      exact (hv.stable (I := fun s => KillInv s ∧ s.exiting = true ∧ (s.pc t).huntish = false)
        (fun s e hs hok => ⟨hs.1.step hok, exiting_step hs.2.1, hs.1.calm hs.2.1 hs.2.2⟩)
        ⟨kill_state hv h₀ i, hexit i hi, hcalm⟩ hij).2.2
    · intro t
      cases hx : ((after s₀ es k).pc t).huntish with
      | false => exact ⟨k, le_refl k, hx⟩
      | true =>
        obtain ⟨j, hj, hg⟩ := dying_gone (fun _ _ hok => hok.core) hv hf h₀.core (Pc.dying_of_huntish hx)
        refine ⟨j, hj, ?_⟩
        rw [hg]
        rfl
  -- so all threads have SIGKILL or are on their way out
  obtain ⟨j, hj, hend⟩ := all_end hv hf h₀ (.inl (hexit i hi)) fun t hl => by
    rcases (kill_state hv h₀ i).hunted (hexit i hi) t hl with hkill | hd | ⟨u, hu⟩
    · exact .inl hkill
    · exact .inr hd
    · have hx := hcalm u
      rw [Pc.huntish_of_hunts hu] at hx
      cases hx
  exact ⟨j, le_trans hi hj, hend⟩

end Fair

/-- The process exits or is to be killed. -/
def Doomed (s : State n) : Prop := s.exiting = true ∨ s.procKill ∨ ∃ t, s.pc t = .exit

/-- **A killed process ends**: in a fair run that meets the condition, once a thread is in `process_exit` or SIGKILL has
been sent to the process, every thread comes to its end and the process is a zombie. -/
theorem killed_process_ends (n : ℕ) (main : Fin n) (es : ℕ → Event n) (hv : Trace.Valid step KillOK (.initial main) es)
    (hf : Scheduled (.initial main) es) (k : ℕ) (hk : Doomed (state step (.initial main) es k)) :
    ∃ j ≥ k, Ended (state step (State.initial main) es j) := by
  have h₀ := KillInv.initial main
  have hexit : ∀ {i}, k ≤ i → (state step (.initial main) es i).exiting = true →
      ∃ j ≥ k, Ended (state step (.initial main) es j) := by
    intro i hi hx
    obtain ⟨j, hj, hend⟩ := exiting_ends hv hf h₀ hx
    exact ⟨j, le_trans hi hj, hend⟩
  have hending : ∀ {i t}, k ≤ i → ((state step (.initial main) es i).pc t).ending = true →
      ∃ j ≥ k, Ended (state step (.initial main) es j) := by
    intro i t hi hx
    obtain ⟨j, hj, hex⟩ := ending_exiting hv hf h₀ hx
    exact hexit (le_trans hi hj) hex
  rcases hk with hx | hp | ⟨t, ht⟩
  · exact hexit (le_refl k) hx
  · by_cases hx : (state step (.initial main) es k).exiting
    · exact hexit (le_refl k) hx
    have hinv := kill_state hv h₀ k
    rcases hinv.alert hp (Bool.eq_false_iff.2 hx) with hnil | ⟨t, ha⟩
    · refine all_end hv hf h₀ (.inr hnil) fun t hl => ?_
      have hm := (hinv.core.mem t).2 hl
      rw [hnil] at hm
      cases hm
    · obtain ⟨j, hj, hex | ⟨u, hu⟩⟩ := procKill_ending hv hf h₀ hp ha
      · exact hexit hj hex
      · exact hending hj hu
  · refine hending (le_refl k) (t := t) ?_
    rw [ht]
    rfl

/-- Thread `t` takes `k` steps. -/
def runs (t : Fin n) (k : ℕ) : List (Event n) := List.replicate k (.go t .interrupt)

/-- Thread `t` creates thread `v` and is back in user mode. -/
def creates (t v : Fin n) : List (Event n) :=
  [.go t .create, .go t .interrupt, .go t (.child v), .go t .interrupt, .go t .interrupt]

def fallsAsleep (t : Fin n) : List (Event n) := [.go t .sleep, .go t .interrupt, .go t .interrupt]

/-- Thread 1 sleeps and SIGKILL is sent to the process; thread 2 takes it and kills the others. -/
def killedThree : List (Event 3) :=
  creates 0 1 ++ creates 0 2 ++ fallsAsleep 1 ++ [.kill] ++ runs 2 15 ++ runs 1 9 ++ runs 0 9

theorem killed_process_ends_three :
    ∃ j ≥ 14, Ended (state step (.initial 0) (script killedThree fun _ => .idle) j) := by
  refine killed_process_ends 3 0 _ (valid_script (fun _ => trivial) ?_) (scheduled_script ?_) 14 (.inr (.inl ?_))
  · decide
  · decide
  · decide

/-- A process with one thread is stopped, and SIGKILL is sent to it. -/
def stoppedThenKilled : List (Event 1) := [.stop] ++ runs 0 6 ++ [.kill]

/-- Thread 1 is in `thread_create` and has seen that the process does not exit; thread 0 exits and kills the others,
thread 1 creates thread 2 and dies, and thread 2 goes to sleep. -/
def createdMeanwhile : List (Event 3) :=
  creates 0 1 ++ [.go 1 .create, .go 1 .interrupt, .go 0 .exitGroup] ++ runs 0 10 ++ [.go 1 (.child 2)] ++
    runs 1 9 ++ fallsAsleep 2

/-- A process with one thread waits for a virtual terminal, and SIGKILL is sent to it: `waitq_sleep` returns -EINTR, and
the loop of `VT_WAITACTIVE` calls it again. -/
def waitsForTerminal : List (Event 1) := fallsAsleep 0 ++ [.kill, .go 0 .sleep]

/-- After `l`, with `e` from then on, each thread that may run does so again and again, and the process, which is to end,
never does. -/
def Survives (main : Fin n) (l : List (Event n)) (e : Event n) : Prop :=
  Scheduled (.initial main) (script l fun _ => e) ∧
    Doomed (state step (.initial main) (script l fun _ => e) l.length) ∧
    ∀ j ≥ l.length, ¬Ended (state step (.initial main) (script l fun _ => e) j)

/-- A run that comes to rest is fair if only the thread that goes on can run. -/
theorem survives {l : List (Event n)} {main : Fin n}
    (hrest : step (Run.final step (.initial main) l) e = Run.final step (.initial main) l)
    (hrun : ∀ t, ((Run.final step (.initial main) l).pc t).runnable → e.owner = some t)
    (hd : Doomed (Run.final step (.initial main) l)) (hdead : (Run.final step (.initial main) l).dead = false) :
    Survives main l e := by
  refine ⟨Trace.fair_script (fun _ => hrest) ?_, ?_, ?_⟩
  · intro t ht k
    exact ⟨k, le_refl k, hrun t ht⟩
  · rw [Trace.state_script_rest (fun _ => hrest) (le_refl _)]
    exact hd
  · intro j hj hend
    rw [Trace.state_script_rest (fun _ => hrest) hj] at hend
    cases hend.1.symm.trans hdead

/-- **A killed process lives on**: SIGKILL does not wake a stopped thread, a thread that is created while the others are
killed is not among them, and one that waits for a terminal does not look at the signal. -/
theorem killed_process_survives : Survives 0 stoppedThenKilled .idle ∧ Survives 0 createdMeanwhile .idle ∧
    Survives 0 waitsForTerminal (.go 0 .sleep) := by
  refine ⟨survives rfl ?_ (.inr (.inl ?_)) ?_, survives rfl ?_ (.inl ?_) ?_, survives ?_ ?_ (.inr (.inl ?_)) ?_⟩
  case refine_7 =>
    -- the thread is before `waitq_sleep` again
    have hpc : (Run.final step (.initial 0) waitsForTerminal).pc 0 = .sleep := by decide
    have hnext : (Run.final step (.initial 0) waitsForTerminal).next 0 = some .kill := by decide
    simp only [step, go, hpc, hnext, if_true, State.goto]
    rw [← hpc, Function.update_eq_self]
  all_goals decide

end NeoOS.ThreadGroup
