import Mathlib.Data.List.Perm.Basic
import NeoOS.Lib.Run
import NeoOS.Spec.Ctty

/-!
# Controlling-terminal isolation

The reference counts of the ptys are the numbers of their open descriptors, so a slot with an open descriptor is in use.
If no pty is torn down while a process still has it as its controlling terminal, and no process takes its terminal along
into a new session, `/dev/tty` reaches only terminals that the session of the caller has acquired and that are still
the same.
-/

namespace NeoOS.Ctty

open List
open Function (update update_apply update_of_ne update_self)

variable {s s' : State} {e : Event} {p i : ℕ} {t : Tty} {f : Fd} {ptys : ℕ → Pty} {h h' : Fd → ℕ} {x : ℕ × Fd}

/-- The terminal is static, or its slot is in use. -/
def State.live (s : State) : Tty → Prop
  | .vt _ => True
  | .pts i => (s.ptys i).used = true

/-- `/dev/tty` of every process is a terminal that its session has acquired and that was not torn down since. -/
def Isolated (s : State) : Prop :=
  ∀ p, s.runs p → ∀ t, cttyOf s p = some t → s.live t ∧ ((s.proc p).sid, t, s.gen t) ∈ s.acquired

/-- The process has the pty as its controlling terminal. -/
def State.uses (s : State) (q i : ℕ) : Bool := !(s.proc q).exiting && (s.proc q).ctty == some (.pts i)

/-- The close of the descriptor tears down a pty that is a controlling terminal. -/
def State.torn (s : State) : Fd → Bool
  | .pty _ i => (s.ptys i).refs .master + (s.ptys i).refs .slave == 1 && s.pids.any (s.uses · i)
  | _ => false

/-- A process without a terminal starts a new session, and no pty that is the controlling terminal of a process is
torn down. -/
def CttyOK (s : State) : Event → Prop
  | .setsid p => (s.proc p).sid = p ∨ (s.proc p).ctty = none
  | .close k => ∀ x ∈ s.fds[k]?, s.torn x.2 = false
  | _ => True

instance (s : State) (e : Event) : Decidable (CttyOK s e) := by
  cases e <;> unfold CttyOK <;> infer_instance

/-! ## Reference counts -/

/-- The number of descriptors of a kind. -/
def State.held (s : State) (f : Fd) : ℕ := s.fds.countP (·.2 = f)

/-- The pool with `h f` descriptors of each kind. -/
structure RefsOK (ptys : ℕ → Pty) (h : Fd → ℕ) : Prop where
  count : ∀ e i, (ptys i).refs e = h (.pty e i)
  used : ∀ e i, 0 < h (.pty e i) → (ptys i).used
  built : ∀ i, (ptys i).used → (ptys i).built

/-- The slots keep their ptys. -/
def Kept (ptys ptys' : ℕ → Pty) : Prop := ∀ i, (ptys' i).used = (ptys i).used ∧ (ptys' i).gen = (ptys i).gen

theorem kept_ref (ptys : ℕ → Pty) (f : Fd) : Kept ptys (onPty ptys Pty.ref f) := by
  intro i
  cases f <;> simp only [onPty] <;> grind [update_apply, Pty.ref]

theorem RefsOK.set {pt : Pty} (hr : RefsOK ptys h) (hpt : ∀ e, pt.refs e = h' (.pty e i) ∧ (0 < h' (.pty e i) → pt.used))
    (hb : pt.used → pt.built) (hh : ∀ e j, j ≠ i → h' (.pty e j) = h (.pty e j)) : RefsOK (update ptys i pt) h' := by
  refine ⟨fun e j => ?_, fun e j => ?_, fun j => ?_⟩ <;> by_cases hj : j = i
  all_goals first | (subst hj; rw [update_self]) | rw [update_of_ne hj]
  · exact (hpt e).1
  · rw [hh e j hj]
    exact hr.count e j
  · exact (hpt e).2
  · rw [hh e j hj]
    exact hr.used e j
  · exact hb
  · exact hr.built j

theorem RefsOK.other (hr : RefsOK ptys h) (hh : ∀ e i, h' (.pty e i) = h (.pty e i)) : RefsOK ptys h' :=
  ⟨fun e i => (hr.count e i).trans (hh e i).symm, fun e i hp => hr.used e i (hh e i ▸ hp), hr.built⟩

theorem RefsOK.ref (hr : RefsOK ptys h) (hf : ∀ e i, f = .pty e i → (ptys i).used)
    (hh : ∀ g, h' g = h g + if f = g then 1 else 0) : RefsOK (onPty ptys Pty.ref f) h' := by
  cases f with
  | vt | ctty => exact hr.other fun e i => hh _
  | pty e' j =>
    have hc := hr.count
    refine hr.set (fun e => ⟨?_, fun _ => hf e' j rfl⟩) (hr.built j) fun e i hi => by simp [hh, hi.symm]
    simp only [Pty.ref, update_apply]
    grind

theorem refs_foldl (l : List Fd) (hr : RefsOK ptys h) (hl : ∀ e i, .pty e i ∈ l → (ptys i).used)
    (hh : ∀ g, h' g = h g + l.count g) :
    RefsOK (l.foldl (fun ptys => onPty ptys Pty.ref) ptys) h' ∧ Kept ptys (l.foldl (fun ptys => onPty ptys Pty.ref) ptys) := by
  induction l generalizing ptys h with
  | nil =>
    obtain rfl : h' = h := funext hh
    exact ⟨hr, fun i => ⟨rfl, rfl⟩⟩
  | cons f l ih =>
    have hk := kept_ref ptys f
    obtain ⟨h1, h2⟩ := ih (hr.ref (fun e i hf => hl e i (hf ▸ mem_cons_self)) fun _ => rfl)
      (fun e i hm => (hk i).1.trans (hl e i (mem_cons_of_mem f hm))) fun g => by
        simp only [hh, count_cons, beq_iff_eq]
        omega
    exact ⟨h1, fun i => ⟨(h2 i).1.trans (hk i).1, (h2 i).2.trans (hk i).2⟩⟩

theorem RefsOK.unref (hr : RefsOK ptys h) (hh : ∀ g, h g = h' g + if f = g then 1 else 0) :
    RefsOK (onPty ptys Pty.unref f) h' := by
  cases f with
  | vt | ctty => exact hr.other fun e i => by simp [hh]
  | pty e' j =>
    have hc := hr.count
    have hu := hr.used e' j
    refine hr.set (fun e => ?_) (fun hb => hr.built j (Bool.and_eq_true_iff.1 hb).1) fun e i hi => by simp [hh, hi.symm]
    simp only [Pty.unref, update_apply]
    cases e <;> cases e' <;> grind

/-! ## The invariant -/

structure Inv (s : State) : Prop where
  refs : RefsOK s.ptys s.held
  iso : Isolated s

theorem held_pos (hx : x ∈ s.fds) : 0 < s.held x.2 := countP_pos_iff.2 ⟨x, hx, decide_eq_true rfl⟩

theorem RefsOK.used_of_mem (h : RefsOK s.ptys s.held) (hx : x ∈ s.fds) (e : End) (i : ℕ) (hf : x.2 = .pty e i) :
    (s.ptys i).used :=
  h.used e i (hf ▸ held_pos hx)

theorem held_cons (x : ℕ × Fd) (l : List (ℕ × Fd)) (g : Fd) :
    (x :: l).countP (·.2 = g) = l.countP (·.2 = g) + if x.2 = g then 1 else 0 := by
  simp [countP_cons]

theorem held_own (s : State) (p child : ℕ) (g : Fd) :
    (((s.own p).map (child, ·)) ++ s.fds).countP (·.2 = g) = s.held g + (s.own p).count g := by
  rw [countP_append, countP_map, Nat.add_comm, count_eq_countP]
  rfl

/-- Nothing that matters to the terminals in use changes. -/
theorem Isolated.same (h : Isolated s) (hacq : s'.acquired = s.acquired)
    (hproc : ∀ p t, s'.runs p → cttyOf s' p = some t → ∃ q, s.runs q ∧ cttyOf s q = some t ∧ (s.proc q).sid = (s'.proc p).sid)
    (hptys : ∀ q i, s.runs q → cttyOf s q = some (.pts i) → (s.ptys i).used →
      (s'.ptys i).used ∧ (s'.ptys i).gen = (s.ptys i).gen) : Isolated s' := by
  intro p hp t ht
  obtain ⟨q, hq, htq, hsid⟩ := hproc p t hp ht
  obtain ⟨hl, hm⟩ := h q hq t htq
  cases t with
  | vt k => exact ⟨trivial, hacq ▸ hsid ▸ hm⟩
  | pts i =>
    obtain ⟨hl', hg⟩ := hptys q i hq htq hl
    simp only [State.gen] at hm ⊢
    exact ⟨hl', hacq ▸ hsid ▸ hg ▸ hm⟩

theorem Isolated.pool (h : Isolated s) {l : List (ℕ × Fd)} {f : ℕ → Pty}
    (hk : ∀ q i, s.runs q → cttyOf s q = some (.pts i) → (s.ptys i).used →
      (f i).used ∧ (f i).gen = (s.ptys i).gen) : Isolated { s with fds := l, ptys := f } :=
  h.same rfl (fun q _ hq ht => ⟨q, hq, ht, rfl⟩) hk

theorem Isolated.setProc (h : Isolated s) {x : Proc} (hrun : x.exiting = false → (s.proc p).exiting = false)
    (hct : x.ctty = (s.proc p).ctty) (hsid : x.sid = (s.proc p).sid ∨ x.ctty = none) : Isolated (s.setProc p x) := by
  refine h.same rfl ?_ fun q i _ _ hu => ⟨hu, rfl⟩
  intro q t hq ht
  refine ⟨q, ?_⟩
  simp only [State.runs, cttyOf, State.setProc] at hq ht ⊢
  grind [update_apply]

/-! ## The calls -/

theorem Inv.claim_unused (h : Inv s) {mem : Bool} (hi : claim s mem = some i) : (s.ptys i).used = false := by
  have hb := h.refs.built i
  unfold claim at hi
  grind

theorem Inv.ptmxOpen (h : Inv s) (p : ℕ) (mem reg : Bool) : Inv (ptmxOpen p mem reg s) := by
  unfold Ctty.ptmxOpen
  split
  · exact h
  · rename_i i hi
    have hu := h.claim_unused hi
    -- nobody has a descriptor of the slot
    have hzero : ∀ e, s.held (.pty e i) = 0 := by
      intro e
      by_contra hne
      rw [h.refs.used e i (Nat.pos_of_ne_zero hne)] at hu
      cases hu
    split
    · refine ⟨h.refs.set (fun e => ?_) (fun _ => rfl) fun e j hj => ?_, h.iso.pool ?_⟩
      · rw [State.held, held_cons, show List.countP _ s.fds = 0 from hzero e]
        cases e <;> simp
      · rw [State.held, held_cons, if_neg (by simp [hj.symm])]
        rfl
      · grind [update_apply]
    · refine ⟨h.refs.set (fun e => ⟨(hzero e).symm, fun hp => ?_⟩) nofun fun _ _ _ => rfl, h.iso.pool (l := s.fds) ?_⟩
      · exact absurd (hzero e) (Nat.ne_of_gt hp)
      · grind [update_apply]

theorem Inv.ptsOpen (h : Inv s) (p i : ℕ) : Inv (ptsOpen p i s) := by
  unfold Ctty.ptsOpen
  split
  · rename_i hu
    have hr := h.refs.ref (f := .pty .slave i) (fun e j hf => by cases hf; exact hu) (held_cons (p, .pty .slave i) s.fds)
    refine ⟨h.refs.set (fun e => ⟨?_, fun _ => hu⟩) (h.refs.built i) fun e j hj => ?_, h.iso.pool ?_⟩
    · have hc := hr.count e i
      simp only [onPty, update_self] at hc
      exact hc
    · rw [State.held, held_cons, if_neg (by simp [hj.symm])]
      rfl
    · grind [update_apply, Pty.ref]
  · exact h

theorem Inv.other (h : Inv s) (hx : ∀ e i, x.2 ≠ .pty e i) : Inv { s with fds := x :: s.fds } := by
  refine ⟨h.refs.other fun e i => ?_, h.iso.pool (f := s.ptys) fun _ _ _ _ hu => ⟨hu, rfl⟩⟩
  rw [State.held, held_cons, if_neg (hx e i)]
  rfl

theorem Inv.dup (h : Inv s) (hx : x ∈ s.fds) : Inv { s with fds := x :: s.fds, ptys := onPty s.ptys Pty.ref x.2 } :=
  ⟨h.refs.ref (h.refs.used_of_mem hx) (held_cons x s.fds),
    h.iso.pool fun _ i _ _ hu => ⟨(kept_ref s.ptys x.2 i).1.trans hu, (kept_ref s.ptys x.2 i).2⟩⟩

/-- A close that is not the last of its pty keeps it open. -/
theorem unref_kept {q : ℕ} (h : RefsOK s.ptys s.held) (hf : 0 < s.held f) (hq : s.runs q) (ht : cttyOf s q = some (.pts i))
    (hlast : s.torn f = false) (hu : (s.ptys i).used) :
    (onPty s.ptys Pty.unref f i).used ∧ (onPty s.ptys Pty.unref f i).gen = (s.ptys i).gen := by
  cases f with
  | vt | ctty => exact ⟨hu, rfl⟩
  | pty e j =>
    by_cases hij : i = j
    · subst hij
      have he := h.count e i
      have huse : s.pids.any (s.uses · i) := any_eq_true.2 ⟨q, hq.1, by simpa [State.uses, cttyOf, hq.2] using ht⟩
      simp only [State.torn, huse, Bool.and_true, beq_eq_false_iff_ne] at hlast
      simp only [onPty, Pty.unref, update_self]
      cases e <;> grind [update_apply]
    · simp only [onPty, update_of_ne hij]
      exact ⟨hu, trivial⟩

theorem Inv.close (h : Inv s) {k : ℕ} (hk : s.fds[k]? = some x) (hok : CttyOK s (.close k)) :
    Inv { s with fds := s.fds.eraseIdx k, ptys := onPty s.ptys Pty.unref x.2 } := by
  refine ⟨h.refs.unref ?_, h.iso.pool ?_⟩
  · intro g
    obtain ⟨hlt, rfl⟩ := List.getElem?_eq_some_iff.1 hk
    rw [State.held, ← (getElem_cons_eraseIdx_perm hlt).countP_eq (·.2 = g), held_cons]
    rfl
  · exact fun q i hq ht hu => unref_kept h.refs (held_pos (mem_of_getElem? hk)) hq ht (hok x hk) hu

theorem Inv.fork (h : Inv s) (hp : s.runs p) {child : ℕ} : Inv { s.setProc child (s.proc p) with
      pids := child :: s.pids
      fds := (s.own p).map (child, ·) ++ s.fds
      ptys := (s.own p).foldl (fun ptys => onPty ptys Pty.ref) s.ptys } := by
  have hown : ∀ e i, .pty e i ∈ s.own p → (s.ptys i).used := by
    intro e i hm
    obtain ⟨x, hx, hf⟩ := mem_map.1 hm
    exact h.refs.used_of_mem (mem_filter.1 hx).1 e i hf
  obtain ⟨hr, hk⟩ := refs_foldl (s.own p) h.refs hown (held_own s p child)
  refine ⟨hr, h.iso.same rfl ?_ fun _ i _ _ hu => ⟨(hk i).1.trans hu, (hk i).2⟩⟩
  intro q t hq ht
  by_cases hqc : q = child
  · subst hqc
    simp only [cttyOf, State.setProc, update_self] at ht ⊢
    exact ⟨p, hp, ht, rfl⟩
  · simp only [State.runs, cttyOf, State.setProc, update_of_ne hqc] at hq ht ⊢
    exact ⟨q, ⟨(mem_cons.1 hq.1).resolve_left hqc, hq.2⟩, ht, rfl⟩

theorem Inv.sctty (h : Inv s) (hl : s.live t) : Inv (tiocsctty p t s) := by
  unfold tiocsctty
  simp only
  split
  · exact h
  · refine ⟨?_, ?_⟩
    · cases t with
      | vt => exact h.refs
      | pts i => exact h.refs.set (fun e => ⟨h.refs.count e i, h.refs.used e i⟩) (h.refs.built i) fun _ _ _ => rfl
    · intro q hq u hu
      have hq' := h.iso q
      simp only [State.runs, cttyOf, State.setProc] at hq hu hq' ⊢
      cases t <;> cases u <;> simp only [State.live, State.gen] at hl hq' ⊢ <;> grind [update_apply]

theorem Inv.terminal_live (h : Inv s) (hx : x ∈ s.fds) (hp : s.runs x.1) {active : ℕ}
    (ht : terminal s x.1 active x.2 = some t) : s.live t := by
  unfold terminal at ht
  split at ht
  · cases ht
  · rename_i i hi
    cases ht
    exact h.refs.used_of_mem hx .slave i hi
  · cases ht
    trivial
  · exact (h.iso x.1 hp t ht).1

/-- **Every call keeps the invariant.** -/
theorem Inv.step (h : Inv s) (hok : CttyOK s e) : Inv (step s e) := by
  cases e with
  | fork p child =>
    simp only [Ctty.step]
    split
    · rename_i hg
      exact h.fork hg.1
    · exact h
  | setsid p =>
    simp only [Ctty.step]
    split
    · exact ⟨h.refs, h.iso.setProc id rfl (hok.imp_left Eq.symm)⟩
    · exact h
  | openPtmx p mem reg =>
    simp only [Ctty.step]
    split
    · exact h.ptmxOpen p mem reg
    · exact h
  | openPts p i =>
    simp only [Ctty.step]
    split
    · exact h.ptsOpen p i
    · exact h
  | openVt p k =>
    simp only [Ctty.step]
    split
    · exact h.other nofun
    · exact h
  | openCtty p =>
    simp only [Ctty.step, cttyOpen]
    repeat' split
    · exact h
    · exact h.other nofun
    · exact h
  | dup k =>
    simp only [Ctty.step]
    repeat' split
    · rename_i hx _
      exact h.dup (mem_of_getElem? hx)
    · exact h
    · exact h
  | close k =>
    simp only [Ctty.step]
    split
    · rename_i hx
      exact h.close hx hok
    · exact h
  | sctty k active =>
    simp only [Ctty.step]
    repeat' split
    · rename_i _ x hx _ t ht hp
      exact h.sctty (h.terminal_live (mem_of_getElem? hx) hp ht)
    all_goals exact h
  | exit p =>
    simp only [Ctty.step]
    split
    · exact ⟨h.refs, h.iso.setProc nofun rfl (.inl rfl)⟩
    · exact h
  | reap p =>
    simp only [Ctty.step]
    split
    · refine ⟨h.refs, h.iso.same rfl ?_ fun _ _ _ _ hu => ⟨hu, rfl⟩⟩
      exact fun q t hq ht => ⟨q, ⟨(mem_filter.1 hq.1).1, hq.2⟩, ht, rfl⟩
    · exact h

theorem Inv.initial (p : ℕ) : Inv (.initial p) := ⟨⟨fun _ _ => rfl, nofun, nofun⟩, nofun⟩

/-- **Controlling-terminal isolation**: in every run from one process in which no process takes its terminal along into
a new session and no pty is torn down that is still a controlling terminal, `/dev/tty` reaches only terminals that the
session of the caller has acquired and that have not been torn down since. -/
theorem ctty_isolated (p : ℕ) (es : List Event) (hv : Run.Valid step CttyOK (.initial p) es) :
    Isolated (Run.final step (.initial p) es) :=
  (hv.invariant (fun _ _ h hok => h.step hok) (Inv.initial p)).iso

/-- Process 2 starts a session and takes over the pty that process 1 has opened; process 3 has it by inheritance. When
2 and 3 exit, the pty goes, and the slot is used again. -/
def sessionOnPty : List Event :=
  [.openPtmx 1 true true, .fork 1 2, .setsid 2, .openPts 2 0, .sctty 0 1, .fork 2 3, .openCtty 3, .exit 2, .exit 3, .close 5,
    .close 4, .close 3, .close 2, .close 1, .close 0, .reap 3, .openPtmx 1 true true]

theorem ctty_isolated_sessionOnPty : cttyOf (Run.final step (.initial 1) (sessionOnPty.take 7)) 3 = some (.pts 0) ∧
      Isolated (Run.final step (.initial 1) (sessionOnPty.take 7)) ∧ Isolated (Run.final step (.initial 1) sessionOnPty) := by
  refine ⟨?_, ctty_isolated 1 _ ?_, ctty_isolated 1 _ ?_⟩ <;> decide

/-- Process 1 acquires a pty and closes it; process 2, in a session of its own, opens one in the same slot and acquires
it. -/
def slotReused : List Event :=
  [.fork 1 2, .setsid 2, .openPtmx 1 true true, .openPts 1 0, .sctty 0 1, .close 0, .close 0, .openPtmx 2 true true,
    .openPts 2 0, .sctty 0 1]

/-- Process 1 acquires a virtual terminal; its child starts a session. -/
def takenAlong : List Event := [.openVt 1 1, .sctty 0 1, .fork 1 2, .setsid 2]

/-- **`/dev/tty` reaches another session's terminal**: through the slot of a pty that is gone, and after `setsid`. -/
theorem ctty_not_isolated :
    ¬Isolated (Run.final step (.initial 1) slotReused) ∧ ¬Isolated (Run.final step (.initial 1) takenAlong) := by
  constructor
  · intro h
    have hm := (h 1 (by decide) (.pts 0) (by decide)).2
    revert hm
    decide
  · intro h
    have hm := (h 2 (by decide) (.vt 1) (by decide)).2
    revert hm
    decide

end NeoOS.Ctty
