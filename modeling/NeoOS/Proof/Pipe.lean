import NeoOS.Lib.Pool
import NeoOS.Lib.Run
import NeoOS.Spec.Pipe

/-!
# A pipe is a reliable FIFO

* `readLoop_spec`, `writeRound_spec`: what one section does to the queue of bytes and to the
  counters of the pipe.
* `PipeInv`: the invariant.
* `pipe_fifo_run`: the FIFO property along every run, and what the returns 0 and `EPIPE` mean.
* `small_write_contiguous`: when the bytes of a write are in one piece.
-/

namespace NeoOS.Pipe

open List
open Run (final)

variable {s s' : State} {o o' : Object} {f : Fd} {i k len written w : ℕ} {p p' : Proc} {l l' : List Fd} {sig asleep : Bool}
  {got accepted data b : List UInt8} {act : Activity} {r : Outcome}

/-! ## Order, end of file and EPIPE -/

/-- Nobody has a descriptor to write with. -/
def NoWriter (s : State) : Prop := ∀ p ∈ s.procs, ∀ f ∈ p.fds, f.writable = false

/-- Nobody has a descriptor to read with. -/
def NoReader (s : State) : Prop := ∀ p ∈ s.procs, ∀ f ∈ p.fds, f.readable = false

/-- The bytes read are a prefix of the bytes accepted, the buffer is never over full, and no
process uses a pipe that is freed. -/
structure FifoOK (s : State) : Prop where
  order : s.got <+: s.accepted
  room : s.obj.ring.len ≤ capacity
  live : ∀ p ∈ s.procs, p.fds ≠ [] → s.obj.freed = false

/-- What a return of 0 and `EPIPE` say about the state before. -/
def OutcomeOK (s : State) : Outcome → Prop
  | .read len (.ok []) => len ≠ 0 → s.obj.ring.len = 0 ∧ NoWriter s
  | .write (.error .epipe) => NoReader s
  | _ => True

/-- The transfer lengths fit 32 bits. -/
def Sized (_ : State) : Event → Prop
  | .read _ _ len => len < 2 ^ 32
  | .write _ _ data => data.length < 2 ^ 32
  | _ => True

/-- The pipe is new, and one process has its two descriptors. -/
structure Fresh (s : State) : Prop where
  obj : ∃ buf, s.obj = pipeCreate buf
  procs : ∃ nonblock, s.procs = [⟨createFds nonblock, .idle⟩]
  got : s.got = []
  accepted : s.accepted = []

/-! ## Counters -/

/-- The counters of the pipe count the descriptors `l`. -/
structure Counts (o : Object) (l : List Fd) : Prop where
  refs : o.refs = l.length
  readers : o.readersOpen = l.countP (·.readable)
  writers : o.writersOpen = l.countP (·.writable)
  freed : o.freed → l = []

theorem Counts.perm (h : Counts o l) (hp : l'.Perm l) : Counts o l' := by
  refine ⟨?_, ?_, ?_, ?_⟩
  · rw [h.refs, hp.length_eq]
  · rw [h.readers, hp.countP_eq]
  · rw [h.writers, hp.countP_eq]
  · intro hf
    rw [h.freed hf] at hp
    exact hp.eq_nil

/-- The sections of reads and writes leave the counters alone. -/
structure SameCounters (o o' : Object) : Prop where
  refs : o'.refs = o.refs
  readers : o'.readersOpen = o.readersOpen
  writers : o'.writersOpen = o.writersOpen
  freed : o'.freed = o.freed

theorem SameCounters.refl (o : Object) : SameCounters o o := ⟨rfl, rfl, rfl, rfl⟩

theorem Counts.same (h : Counts o l) (hs : SameCounters o o') : Counts o' l := by
  refine ⟨hs.refs.trans h.refs, hs.readers.trans h.readers, hs.writers.trans h.writers, fun hf => ?_⟩
  exact h.freed (hs.freed.symm.trans hf)

theorem Counts.dup (h : Counts o l) (hne : l ≠ []) : Counts (pipeDup o f) (f :: l) := by
  refine ⟨?_, ?_, ?_, ?_⟩
  · simp [pipeDup, h.refs]
  · simp only [pipeDup, h.readers, countP_cons]
    split <;> simp
  · simp only [pipeDup, h.writers, countP_cons]
    split <;> simp
  · intro hf
    exact absurd (h.freed hf) hne

theorem Counts.dupAll (fs : List Fd) (hne : fs ≠ [] → l ≠ []) (h : Counts o l) : Counts (fs.foldl pipeDup o) (fs ++ l) := by
  induction fs generalizing o l with
  | nil => exact h
  | cons f fs ih =>
    rw [foldl_cons]
    have hnext := ih (fun _ => cons_ne_nil f l) (h.dup (hne (cons_ne_nil f fs)))
    exact hnext.perm perm_middle.symm

theorem Counts.close (h : Counts o (f :: l)) : Counts (pipeClose o f) l := by
  have hlen : o.refs = (l.length : ℤ) + 1 := by
    rw [h.refs]
    simp
  refine ⟨?_, ?_, ?_, ?_⟩
  · simp [pipeClose, hlen]
  · simp only [pipeClose, h.readers, countP_cons]
    split <;> simp
  · simp only [pipeClose, h.writers, countP_cons]
    split <;> simp
  · intro hf
    simp only [pipeClose, Bool.or_eq_true, decide_eq_true_eq] at hf
    rcases hf with hf | hf
    · exact absurd (h.freed hf) (cons_ne_nil f l)
    · rw [hlen] at hf
      apply eq_nil_of_length_eq_zero
      omega

/-! ## The sections -/

/-- The queue of bytes. -/
def Object.bytes (o : Object) : List UInt8 := o.ring.contents capacity

/-- **The loop of a read**: it takes bytes from the front, or finds nothing. -/
theorem readLoop_spec (f : Fd) (len : ℕ) (sig : Bool) (o : Object) :
    SameCounters o (readLoop f len sig o).1 ∧ (readLoop f len sig o).1.ring.len ≤ o.ring.len ∧
      ∃ out, o.bytes = out ++ (readLoop f len sig o).1.bytes ∧ out = ((readLoop f len sig o).2.map returned).getD [] := by
  unfold readLoop
  split
  · refine ⟨⟨rfl, rfl, rfl, rfl⟩, ?_, _, ?_, rfl⟩
    · exact Nat.sub_le _ _
    · simp only [ringRead, Object.bytes]
      rw [RingBuf.contents_skip, RingBuf.peek_eq (by simp), drop_zero]
      exact (take_append_drop _ _).symm
  split
  · exact ⟨.refl o, le_refl _, [], rfl, rfl⟩
  split
  · exact ⟨.refl o, le_refl _, [], rfl, rfl⟩
  split
  · exact ⟨.refl o, le_refl _, [], rfl, rfl⟩
  · exact ⟨.refl o, le_refl _, [], rfl, rfl⟩

theorem readLoop_empty : (readLoop f len sig o).2 = some (.ok []) ↔
    if 0 < o.ring.len then len % 2 ^ 32 = 0 else o.writersOpen = 0 := by
  unfold readLoop
  split
  · simp only [Option.some.injEq, Except.ok.injEq, ringRead, ← length_eq_zero_iff, RingBuf.length_peek]
    omega
  split
  · simp [*]
  split
  · simp [*]
  split <;> simp [*]

/-- **A round of a write**: it appends bytes, as far as there is room. -/
theorem writeRound_spec (f : Fd) (data : List UInt8) (written : ℕ) (o : Object) (hroom : o.ring.len ≤ capacity) :
    SameCounters o (writeRound f data written o).1 ∧ (writeRound f data written o).1.ring.len ≤ capacity ∧
      (writeRound f data written o).1.bytes = o.bytes ++ (writeRound f data written o).2.1 := by
  unfold writeRound
  split
  · exact ⟨.refl o, hroom, (append_nil _).symm⟩
  split
  · exact ⟨.refl o, hroom, (append_nil _).symm⟩
  -- the bytes that are written fit
  have hput : ∀ (input : List UInt8) (want : ℕ), o.ring.len + (ringWrite input want o).2.length ≤ capacity := by
    intro input want
    simp only [ringWrite, length_take]
    omega
  simp only
  generalize hr : ringWrite (data.drop written) ((data.length - written) % 2 ^ 32) o = r
  have hobj : r.1 = { o with ring := o.ring.push capacity r.2 } := by
    rw [← hr]
    rfl
  have hfits : o.ring.len + r.2.length ≤ capacity := by
    rw [← hr]
    exact hput _ _
  have hspec : SameCounters o r.1 ∧ r.1.ring.len ≤ capacity ∧ r.1.bytes = o.bytes ++ r.2 := by
    rw [hobj]
    refine ⟨⟨rfl, rfl, rfl, rfl⟩, ?_, ?_⟩
    · simp only [RingBuf.len_push]
      exact hfits
    · exact RingBuf.contents_push hfits
  split
  · exact hspec
  split
  · exact hspec
  · exact hspec

/-- A write that fails with `EPIPE` has found no reader. -/
theorem writeRound_epipe (h : (writeRound f data written o).2.2 = .done (.error .epipe)) : o.readersOpen = 0 := by
  have hne : ∀ {w : ℕ} {e : Err}, partialWrite w e = .error .epipe → e = .epipe := by
    intro w e he
    unfold partialWrite at he
    split at he
    · cases he
    · exact Except.error.inj he
  unfold writeRound at h
  split at h
  · cases h
  split at h
  · rename_i hr
    exact hr
  simp only at h
  split at h
  · cases h
  split at h
  · cases hne (Round.done.inj h)
  · cases h

/-! ## The invariant -/

/-- The descriptor whose `pipe_close` is to come. -/
def Activity.closingFd : Activity → List Fd
  | .closing f => [f]
  | _ => []

/-- The descriptors that are still counted. -/
def Proc.held (p : Proc) : List Fd := p.act.closingFd ++ p.fds

/-- A call uses a descriptor of the process, and it is of the right kind. -/
def Proc.OK (p : Proc) : Prop :=
  match p.act with
  | .reading f len _ => f ∈ p.fds ∧ len ≠ 0 ∧ len < 2 ^ 32
  | .writing f _ _ _ => f ∈ p.fds
  | _ => True

structure PipeInv (s : State) : Prop where
  counts : Counts s.obj (s.procs.flatMap Proc.held)
  room : s.obj.ring.len ≤ capacity
  bytes : s.accepted = s.got ++ s.obj.bytes
  procs : ∀ p ∈ s.procs, p.OK

theorem mem_held (hp : p ∈ s.procs) (hf : f ∈ p.fds) : f ∈ s.procs.flatMap Proc.held :=
  mem_flatMap.2 ⟨p, hp, mem_append_right _ hf⟩

theorem none_held {q : Fd → Bool} (hz : (s.procs.flatMap Proc.held).countP q = 0) :
    ∀ p ∈ s.procs, ∀ f ∈ p.fds, q f = false := by
  intro p hp f hf
  simpa using countP_eq_zero.1 hz f (mem_held hp hf)

section Calls

variable (h : PipeInv s)
include h

theorem PipeInv.fifoOK : FifoOK s := by
  refine ⟨⟨s.obj.bytes, h.bytes.symm⟩, h.room, ?_⟩
  intro p hp hne
  obtain ⟨f, hf⟩ := exists_mem_of_ne_nil _ hne
  have hmem := mem_held hp hf
  by_contra hfr
  rw [h.counts.freed (by simpa using hfr)] at hmem
  cases hmem

theorem PipeInv.noWriter (h0 : s.obj.writersOpen = 0) : NoWriter s :=
  none_held (q := (·.writable)) (by have := h.counts.writers; omega)

theorem PipeInv.noReader (h0 : s.obj.readersOpen = 0) : NoReader s :=
  none_held (q := (·.readable)) (by have := h.counts.readers; omega)

section

variable (hi : s.procs[i]? = some p)
include hi

theorem PipeInv.setProc
    (hc : ∀ rest, Counts s.obj (p.held ++ rest) → Counts o' (p'.held ++ rest)) (hroom : o'.ring.len ≤ capacity)
    (hb : accepted = got ++ o'.bytes) (hp : p'.OK) :
    PipeInv ({ s with obj := o', got := got, accepted := accepted }.setProc i p') := by
  obtain ⟨rest, h1, h2⟩ := Pool.perm_flatMap_set Proc.held p' hi
  refine ⟨(hc rest (h.counts.perm h1.symm)).perm h2, hroom, hb, ?_⟩
  intro q hq
  rcases mem_or_eq_of_mem_set hq with hq | rfl
  · exact h.procs q hq
  · exact hp

/-- A section of a read or a write: the process does something else with the same descriptors. -/
theorem PipeInv.during (hheld : act.closingFd = p.act.closingFd) (hs : SameCounters s.obj o') (hroom : o'.ring.len ≤ capacity)
    (hb : accepted = got ++ o'.bytes) (hp : Proc.OK { p with act := act }) :
    PipeInv ({ s with obj := o', got := got, accepted := accepted }.setProc i { p with act := act }) := by
  refine h.setProc hi (fun rest hc => ?_) hroom hb hp
  have he : Proc.held { p with act := act } = p.held := by
    unfold Proc.held
    rw [hheld]
  rw [he]
  exact hc.same hs

theorem PipeInv.setAct (hheld : act.closingFd = p.act.closingFd)
    (hp : Proc.OK { p with act := act }) : PipeInv (s.setProc i { p with act := act }) :=
  h.during hi hheld (.refl s.obj) h.room h.bytes hp

theorem PipeInv.actOK (hact : p.act = act) : Proc.OK { p with act := act } := by
  rw [← hact]
  exact h.procs p (mem_of_getElem? hi)

theorem PipeInv.goRead (hact : p.act = .reading f len asleep) : PipeInv (goRead s i p f len sig).1 := by
  have hp := h.actOK hi hact
  obtain ⟨hsame, hlen, out, hout, hret⟩ := readLoop_spec f len sig s.obj
  have hheld : p.act.closingFd = [] := by rw [hact]; rfl
  unfold Pipe.goRead
  simp only
  cases hr : (readLoop f len sig s.obj).2 with
  | none =>
    rw [hr] at hret
    refine h.during hi hheld.symm hsame (hlen.trans h.room) ?_ hp
    rw [h.bytes, hout, hret]
    rfl
  | some r =>
    rw [hr] at hret
    refine h.during hi hheld.symm hsame (hlen.trans h.room) ?_ trivial
    rw [h.bytes, hout, hret, append_assoc]
    rfl

theorem PipeInv.goWrite {pos : WriteAt}
    (hact : p.act = .writing f data written pos) : PipeInv (goWrite s i p f data written).1 := by
  have hp := h.actOK hi hact
  obtain ⟨hsame, hlen, hbytes⟩ := writeRound_spec f data written s.obj h.room
  have hheld : p.act.closingFd = [] := by rw [hact]; rfl
  have hb : s.accepted ++ (writeRound f data written s.obj).2.1 = s.got ++ (writeRound f data written s.obj).1.bytes := by
    rw [h.bytes, hbytes, append_assoc]
  unfold Pipe.goWrite
  simp only
  cases hr : (writeRound f data written s.obj).2.2 with
  | done r => exact h.during hi hheld.symm hsame hlen hb trivial
  | more w => exact h.during hi hheld.symm hsame hlen hb hp

theorem PipeInv.go (woken sig : Bool) : PipeInv (go s i p woken sig).1 := by
  unfold Pipe.go
  cases hact : p.act with
  | idle => exact h
  | reading f len asleep =>
    simp only
    split
    · exact h.setAct hi (by rw [hact]; rfl) trivial
    · exact h.goRead hi hact
  | writing f data written pos =>
    have hp := h.actOK hi hact
    have hidle : PipeInv (s.setProc i { p with act := .idle }) := h.setAct hi (by rw [hact]; rfl) trivial
    cases pos with
    | start => exact h.goWrite hi hact
    | waking =>
      simp only
      split
      · split
        · exact hidle
        · exact h.setAct hi (by rw [hact]; rfl) hp
      · exact h.goWrite hi hact
    | asleep =>
      simp only
      split
      · exact hidle
      · exact h.goWrite hi hact
  | closing f =>
    refine h.setProc hi (fun rest hc => ?_) h.room h.bytes trivial
    have he : p.held = f :: p.fds := by
      unfold Proc.held
      rw [hact]
      rfl
    rw [he, cons_append] at hc
    exact hc.close

end

end Calls

theorem ring_dupAll (fs : List Fd) : ∀ o : Object, (fs.foldl pipeDup o).ring = o.ring := by
  induction fs with
  | nil => intro o; rfl
  | cons f fs ih =>
    intro o
    rw [foldl_cons, ih]
    rfl

/-- A write that a signal ends does not fail with `EPIPE`. -/
theorem outcomeOK_eintr (s : State) (written : ℕ) : OutcomeOK s (.write (partialWrite written .eintr)) := by
  unfold partialWrite
  split <;> trivial

section

variable (h : PipeInv s)
include h

/-- **Every event keeps the invariant.** -/
theorem PipeInv.step (e : Event) (hok : Sized s e) : PipeInv (step s e) := by
  unfold Pipe.step
  cases e with
  | go i woken sig =>
    simp only [stepOut]
    split
    · exact h
    · rename_i p hi
      exact h.go hi woken sig
  | read i k len =>
    simp only [stepOut]
    split
    · rename_i fds hi
      split
      · exact h
      rename_i f hk
      split
      · exact h
      split
      · exact h
      rename_i hlen
      exact h.setAct hi rfl ⟨mem_of_getElem? hk, hlen, hok⟩
    · exact h
  | write i k data =>
    simp only [stepOut]
    split
    · rename_i fds hi
      split
      · exact h
      rename_i f hk
      split
      · exact h
      split
      · exact h
      exact h.setAct hi rfl (mem_of_getElem? hk)
    · exact h
  | dup i k =>
    simp only [stepOut]
    split
    · rename_i fds hi
      split
      · exact h
      rename_i f hk
      refine h.setProc hi (fun rest hc => ?_) h.room h.bytes trivial
      have hne : Proc.held ⟨fds, .idle⟩ ++ rest ≠ [] := by
        intro hnil
        have hmem : f ∈ Proc.held ⟨fds, .idle⟩ ++ rest := mem_append_left _ (mem_of_getElem? hk)
        rw [hnil] at hmem
        cases hmem
      refine (hc.dup hne).perm ?_
      show ((fds ++ [f]) ++ rest).Perm (f :: (fds ++ rest))
      rw [append_assoc]
      exact perm_middle
    · exact h
  | fork i =>
    simp only [stepOut]
    split
    · rename_i fds hi
      refine ⟨?_, ?_, ?_, ?_⟩
      · have hne : fds ≠ [] → s.procs.flatMap Proc.held ≠ [] := by
          intro hfds
          obtain ⟨f, hf⟩ := exists_mem_of_ne_nil _ hfds
          exact ne_nil_of_mem (mem_held (mem_of_getElem? hi) hf)
        refine (h.counts.dupAll fds hne).perm ?_
        rw [flatMap_append]
        have hlast : [(⟨fds, .idle⟩ : Proc)].flatMap Proc.held = fds := by simp [Proc.held, Activity.closingFd]
        rw [hlast]
        exact perm_append_comm
      · simp only [ring_dupAll]
        exact h.room
      · simp only [Object.bytes, ring_dupAll]
        exact h.bytes
      · intro q hq
        rcases mem_append.1 hq with hq | hq
        · exact h.procs q hq
        · rw [mem_singleton.1 hq]
          trivial
    · exact h
  | close i k =>
    simp only [stepOut]
    split
    · rename_i fds hi
      split
      · exact h
      rename_i f hk
      refine h.setProc hi (fun rest hc => ?_) h.room h.bytes trivial
      refine hc.perm ?_
      obtain ⟨hlt, hget⟩ := List.getElem?_eq_some_iff.1 hk
      rw [← hget]
      exact (getElem_cons_eraseIdx_perm hlt).append_right rest
    · exact h

/-! ## Outcomes -/

theorem PipeInv.readOutcome (hi : s.procs[i]? = some p)
    (hact : p.act = .reading f len asleep) (hr : (Pipe.goRead s i p f len sig).2 = some r) : OutcomeOK s r := by
  have hp := h.actOK hi hact
  unfold Pipe.goRead at hr
  simp only at hr
  split at hr
  · rename_i out hout
    cases hr
    match out, hout with
    | .error e, _ => trivial
    | .ok (b :: bs), _ => trivial
    | .ok [], hout =>
      intro h0
      rw [readLoop_empty, Nat.mod_eq_of_lt hp.2.2] at hout
      split at hout
      · exact absurd hout h0
      · exact ⟨by omega, h.noWriter hout⟩
  · cases hr

theorem PipeInv.writeOutcome (hr : (Pipe.goWrite s i p f data written).2 = some r) : OutcomeOK s r := by
  unfold Pipe.goWrite at hr
  simp only at hr
  split at hr
  · rename_i out hout
    cases hr
    match out, hout with
    | .ok n, _ => trivial
    | .error .epipe, hout => exact h.noReader (writeRound_epipe hout)
    | .error .ebadf, _ => trivial
    | .error .eagain, _ => trivial
    | .error .eintr, _ => trivial
  · cases hr

theorem PipeInv.goOutcome {woken : Bool} (hi : s.procs[i]? = some p)
    (hr : (Pipe.go s i p woken sig).2 = some r) : OutcomeOK s r := by
  unfold Pipe.go at hr
  cases hact : p.act with
  | idle | closing =>
    simp only [hact] at hr
    cases hr
  | reading f len asleep =>
    simp only [hact] at hr
    split at hr
    · cases hr
      trivial
    · exact h.readOutcome hi hact hr
  | writing f data written pos =>
    cases pos with
    | start =>
      simp only [hact] at hr
      exact h.writeOutcome hr
    | waking =>
      simp only [hact] at hr
      split at hr
      · split at hr
        · cases hr
          exact outcomeOK_eintr s written
        · cases hr
      · exact h.writeOutcome hr
    | asleep =>
      simp only [hact] at hr
      split at hr
      · cases hr
        exact outcomeOK_eintr s written
      · exact h.writeOutcome hr

theorem PipeInv.outcomeOK (e : Event) (hr : outcome s e = some r) : OutcomeOK s r := by
  unfold outcome at hr
  cases e with
  | go i woken sig =>
    simp only [stepOut] at hr
    split at hr
    · cases hr
    · rename_i p hi
      exact h.goOutcome hi hr
  | read i k len =>
    simp only [stepOut] at hr
    split at hr
    · split at hr
      · cases hr
        trivial
      split at hr
      · cases hr
        trivial
      split at hr
      · rename_i hlen
        cases hr
        intro h0
        exact absurd hlen h0
      · cases hr
    · cases hr
  | write i k data =>
    simp only [stepOut] at hr
    split at hr
    · split at hr
      · cases hr
        trivial
      split at hr
      · cases hr
        trivial
      split at hr
      · cases hr
        trivial
      · cases hr
    · cases hr
  | fork i =>
    simp only [stepOut] at hr
    split at hr <;> cases hr
  | dup | close =>
    simp only [stepOut] at hr
    split at hr
    · split at hr <;> cases hr
    · cases hr

end

/-! ## Runs -/

theorem Fresh.inv (h : Fresh s) : PipeInv s := by
  obtain ⟨buf, hobj⟩ := h.obj
  obtain ⟨nonblock, hprocs⟩ := h.procs
  refine ⟨?_, ?_, ?_, ?_⟩
  · rw [hobj, hprocs]
    refine ⟨rfl, rfl, rfl, fun hf => ?_⟩
    cases hf
  · rw [hobj]
    exact Nat.zero_le _
  · rw [hobj, h.got, h.accepted]
    rfl
  · intro p hp
    rw [hprocs, mem_singleton] at hp
    rw [hp]
    trivial

/-- **A pipe is a reliable FIFO**: in every interleaving, the bytes read are a prefix of the bytes
accepted, the buffer is not over full, a read of at least one byte returns 0 only if the buffer is
empty and no writer is left, and a write fails with `EPIPE` only if no reader is left. -/
theorem pipe_fifo_run (s : State) (es : List Event) (h0 : Fresh s) (hrun : Run.Valid step Sized s es) :
    FifoOK (final step s es) ∧ ∀ e r, outcome (final step s es) e = some r → OutcomeOK (final step s es) r := by
  have h : PipeInv (final step s es) := hrun.invariant (fun s e h hok => h.step e hok) h0.inv
  exact ⟨h.fifoOK, fun e r hr => h.outcomeOK e hr⟩

/-- A new pipe with a cleared buffer. -/
def newPipe : State := ⟨pipeCreate fun _ => 0, [⟨createFds false, .idle⟩], [], []⟩

theorem newPipe_fresh : Fresh newPipe := ⟨⟨_, rfl⟩, ⟨false, rfl⟩, rfl, rfl⟩

instance decidableSized (s : State) (e : Event) : Decidable (Sized s e) := by
  cases e <;> unfold Sized <;> infer_instance

/-- The process writes three bytes, forks and closes its end to write; the child reads two bytes and then closes its own. -/
def forkRun : List Event :=
  [.write 0 1 [7, 8, 9], .go 0 false false, .fork 0, .read 1 0 2, .close 0 1, .go 1 false false, .go 0 false false,
    .close 1 1, .go 1 false false]

theorem pipe_fifo_run_forked : (final step newPipe forkRun).got = [7, 8] ∧ FifoOK (final step newPipe forkRun) ∧
    ∀ e r, outcome (final step newPipe forkRun) e = some r → OutcomeOK (final step newPipe forkRun) r :=
  ⟨by decide, pipe_fifo_run newPipe forkRun newPipe_fresh (by decide)⟩

/-- A byte is written. -/
def writeRun : List Event := [.write 0 1 [7], .go 0 false false]

/-- A read of no bytes returns 0 although there is a byte in the buffer. -/
theorem empty_read_returns_zero : ¬ ∀ (s : State) (es : List Event), Fresh s → Run.Valid step Sized s es →
      ∀ e len, Sized (final step s es) e → outcome (final step s es) e = some (.read len (.ok [])) →
        (final step s es).obj.ring.len = 0 ∧ NoWriter (final step s es) := by
  intro h
  have hv : Run.Valid step Sized newPipe writeRun := by decide
  have hempty := h newPipe writeRun newPipe_fresh hv (.read 0 0 0) 0 (show (0 : ℕ) < 2 ^ 32 by decide) rfl
  have hlen : (final step newPipe writeRun).obj.ring.len = 1 := by decide
  cases hempty.1

/-! ## Atomic writes -/

/-- Process `i` has part of a write of at most the capacity in the pipe. -/
def halfway (s : State) (i : ℕ) : Bool :=
  match s.procs[i]? with
  | some ⟨_, .writing _ data written _⟩ => 0 < written && data.length ≤ capacity
  | _ => false

/-- The process whose write comes to a round that finds a reader and room. -/
def storing (s : State) : Event → Option ℕ
  | .go i woken _ =>
    match s.procs[i]? with
    | some ⟨_, .writing _ _ _ pos⟩ =>
      if (pos = .asleep ∧ woken) ∨ s.obj.ring.len = capacity ∨ s.obj.readersOpen = 0 then none else some i
    | _ => none
  | _ => none

/-- Nothing goes in while a write of at most the capacity of another process is halfway. -/
def Undisturbed (s : State) (e : Event) : Prop := Sized s e ∧ ∀ i ∈ storing s e, ∀ j < s.procs.length, j ≠ i →
    halfway s j = false

/-- What a round of a write stores, and what it reports. -/
structure Stored (data : List UInt8) (written : ℕ) (o : Object) (r : List UInt8 × Round) : Prop where
  le : written + r.1.length ≤ data.length
  bytes : data.take (written + r.1.length) = data.take written ++ r.1
  room : r.1 ≠ [] → ¬ (o.ring.len = capacity ∨ o.readersOpen = 0)
  more : ∀ n, r.2 = .more n → n = written + r.1.length
  ok : ∀ n, r.2 = .done (.ok n) → n = written + r.1.length
  error : ∀ e, r.2 = .done (.error e) → written = 0 ∧ r.1 = []

theorem stored_short {n : ℕ} {e : Err} :
    (∀ m, partialWrite n e = .ok m → m = n) ∧ ∀ e', partialWrite n e = .error e' → n = 0 := by
  unfold partialWrite
  split
  · exact ⟨fun m h => (Except.ok.inj h).symm, nofun⟩
  · exact ⟨nofun, fun _ _ => not_not.1 ‹_›⟩

theorem writeRound_stored (f : Fd) (hw : written ≤ data.length) (o : Object) :
    Stored data written o (writeRound f data written o).2 := by
  unfold writeRound
  split
  · exact ⟨hw, (append_nil _).symm, fun h => absurd rfl h, nofun, fun n h => (Except.ok.inj (Round.done.inj h)).symm, nofun⟩
  split
  · exact ⟨hw, (append_nil _).symm, fun h => absurd rfl h, nofun, fun n h => stored_short.1 n (Round.done.inj h),
      fun e h => ⟨stored_short.2 e (Round.done.inj h), rfl⟩⟩
  rename_i hr
  simp only
  generalize hput : ringWrite (data.drop written) ((data.length - written) % 2 ^ 32) o = r
  -- the bytes are the next ones of the data
  obtain ⟨n, hn, hcap⟩ : ∃ n, r.2 = (data.drop written).take n ∧ n ≤ capacity - o.ring.len := by
    rw [← hput]
    exact ⟨_, rfl, Nat.min_le_right _ _⟩
  have hlen : r.2.length = min n (data.length - written) := by rw [hn, length_take, length_drop]
  have hle : written + r.2.length ≤ data.length := by omega
  have hbytes : data.take (written + r.2.length) = data.take written ++ r.2 := by
    rw [take_add, hlen, hn, ← length_drop]
    exact congrArg _ (take_eq_take_iff.2 (by omega))
  have hroom : r.2 ≠ [] → ¬ (o.ring.len = capacity ∨ o.readersOpen = 0) := by
    intro hne
    have := length_pos_iff.2 hne
    exact not_or.2 ⟨by omega, hr⟩
  split
  · exact ⟨hle, hbytes, hroom, nofun, fun n h => (Except.ok.inj (Round.done.inj h)).symm, nofun⟩
  split
  · refine ⟨hle, hbytes, hroom, nofun, fun n h => stored_short.1 n (Round.done.inj h), fun e h => ?_⟩
    have h0 : written + r.2.length = 0 := stored_short.2 e (Round.done.inj h)
    exact ⟨by omega, eq_nil_of_length_eq_zero (show r.2.length = 0 by omega)⟩
  · exact ⟨hle, hbytes, hroom, fun n h => (Round.more.inj h).symm, nofun, nofun⟩

theorem accepted_goWrite (s : State) (data : List UInt8) (written : ℕ) :
    (goWrite s i p f data written).1.accepted = s.accepted ++ (writeRound f data written s.obj).2.1 := by
  unfold goWrite
  simp only
  split <;> rfl

theorem accepted_step (s : State) (e : Event) : s.accepted <+: (step s e).accepted := by
  have hw : ∀ {i p f data written}, s.accepted <+: (goWrite s i p f data written).1.accepted := by
    intro i p f data written
    rw [accepted_goWrite]
    exact prefix_append _ _
  unfold step
  cases e with
  | go i woken sig =>
    simp only [stepOut, go, goRead]
    repeat' split
    all_goals first | exact prefix_rfl | exact hw
  | read | write | dup | fork | close =>
    simp only [stepOut]
    repeat' split
    all_goals exact prefix_rfl

theorem accepted_run (s : State) (es : List Event) : s.accepted <+: (final step s es).accepted := by
  induction es generalizing s with
  | nil => exact prefix_rfl
  | cons e es ih => exact (accepted_step s e).trans (ih _)

/-- What a process has put in of a write of at most the capacity is the end of the stream. -/
def Activity.AtEnd (accepted : List UInt8) : Activity → Prop
  | .writing _ data written _ => written ≤ data.length ∧ (data.length ≤ capacity → data.take written <:+ accepted)
  | _ => True

def Contiguous (s : State) : Prop := ∀ (i : ℕ) (p : Proc), s.procs[i]? = some p → p.act.AtEnd s.accepted

/-- Only process `i` acts, and `b` goes in. -/
theorem Contiguous.acts (h : Contiguous s) (hprocs : s'.procs = s.procs.set i p')
    (hacc : s'.accepted = s.accepted ++ b) (hfree : b ≠ [] → ∀ j < s.procs.length, j ≠ i → halfway s j = false)
    (hown : p'.act.AtEnd (s.accepted ++ b)) : Contiguous s' := by
  intro j q hj
  rw [hprocs, getElem?_set] at hj
  rw [hacc]
  split at hj
  · split at hj
    · cases hj
      exact hown
    · cases hj
  · rename_i hne
    by_cases hb : b = []
    · rw [hb, append_nil]
      exact h j q hj
    · -- the others have nothing in
      have hfree := hfree hb j (List.getElem?_eq_some_iff.1 hj).1 (Ne.symm hne)
      have hq := h j q hj
      obtain ⟨fds, act⟩ := q
      cases act with
      | writing f data w pos =>
        refine ⟨hq.1, fun hsmall => ?_⟩
        simp only [halfway, hj, Bool.and_eq_false_iff, decide_eq_false_iff_not, hsmall, not_true_eq_false, or_false] at hfree
        rw [Nat.eq_zero_of_not_pos hfree]
        exact nil_suffix
      | idle | reading | closing => trivial

theorem Contiguous.sets (h : Contiguous s) (hprocs : s'.procs = s.procs.set i p')
    (hacc : s'.accepted = s.accepted) (hown : p'.act.AtEnd s.accepted) : Contiguous s' :=
  h.acts (b := []) hprocs (by rw [hacc, append_nil]) (fun h => absurd rfl h) (by rwa [append_nil])

theorem Contiguous.goWrite (h : Contiguous s) (hown : (Activity.writing f data written .start).AtEnd s.accepted)
    (hfree : ¬ (s.obj.ring.len = capacity ∨ s.obj.readersOpen = 0) →
      ∀ j < s.procs.length, j ≠ i → halfway s j = false) : Contiguous (goWrite s i p f data written).1 := by
  have hst := writeRound_stored f hown.1 s.obj
  have hend : data.length ≤ capacity →
      data.take (written + (writeRound f data written s.obj).2.1.length) <:+
        s.accepted ++ (writeRound f data written s.obj).2.1 := by
    intro hsmall
    rw [hst.bytes]
    exact suffix_append_self_iff.2 (hown.2 hsmall)
  unfold Pipe.goWrite
  simp only
  split
  · exact h.acts rfl rfl (fun hb => hfree (hst.room hb)) trivial
  · rename_i n hn
    rw [hst.more n hn]
    exact h.acts rfl rfl (fun hb => hfree (hst.room hb)) ⟨hst.le, hend⟩

theorem Contiguous.step (h : Contiguous s) (e : Event) (hok : Undisturbed s e) : Contiguous (step s e) := by
  unfold Pipe.step
  cases e with
  | go i woken sig =>
    have hfree := hok.2 i
    simp only [stepOut, storing] at hfree ⊢
    split
    · exact h
    rename_i p hi
    have hp := h i p hi
    obtain ⟨fds, act⟩ := p
    cases act with
    | idle => exact h
    | reading f len asleep =>
      simp only [go, goRead]
      repeat' split
      all_goals exact h.sets rfl rfl trivial
    | closing f => exact h.sets rfl rfl trivial
    | writing f data w pos =>
      simp only [hi] at hfree
      cases pos with
      | start => exact h.goWrite hp fun hr => hfree (if_neg (not_or.2 ⟨fun h => (nomatch h.1), hr⟩))
      | waking =>
        simp only [go]
        split
        · split
          · exact h.sets rfl rfl trivial
          · exact h.sets rfl rfl hp
        · exact h.goWrite hp fun hr => hfree (if_neg (not_or.2 ⟨fun h => (nomatch h.1), hr⟩))
      | asleep =>
        simp only [go]
        split
        · exact h.sets rfl rfl trivial
        · exact h.goWrite hp fun hr => hfree (if_neg (not_or.2 ⟨fun h => absurd h.2 ‹_›, hr⟩))
  | read | write | dup | close =>
    simp only [stepOut]
    repeat' split
    all_goals first | exact h | exact h.sets rfl rfl trivial | exact h.sets rfl rfl ⟨Nat.zero_le _, fun _ => nil_suffix⟩
  | fork i =>
    simp only [stepOut]
    split
    · intro j q hj
      rw [getElem?_append] at hj
      split at hj
      · exact h j q hj
      · rw [getElem?_singleton] at hj
        split at hj <;> cases hj
        trivial
    · exact h

theorem Fresh.contiguous (h : Fresh s) : Contiguous s := by
  obtain ⟨nonblock, hprocs⟩ := h.procs
  intro i p hi
  rw [hprocs, getElem?_singleton] at hi
  split at hi <;> cases hi
  trivial

/-- A write of `data` with `w` bytes in returns when the stream grows from `before` to `after`: what it reports is the end
of the stream, next to each other, and a write that fails has put nothing in. -/
def Returned (data : List UInt8) (w : ℕ) (before after : List UInt8) : Except Err ℕ → Prop
  | .ok n => n ≤ data.length ∧ data.take n <:+ after
  | .error _ => w = 0 ∧ after = before

theorem returned_partial (h : w ≤ data.length ∧ data.take w <:+ accepted) :
    Returned data w accepted accepted (partialWrite w .eintr) := by
  unfold partialWrite
  split
  · exact h
  · exact ⟨not_not.1 ‹_›, rfl⟩

theorem Stored.returned {r : Except Err ℕ} (h : Stored data w o (b, .done r))
    (hend : data.take w <:+ accepted) : Returned data w accepted (accepted ++ b) r := by
  cases r with
  | ok n =>
    rw [h.ok n rfl]
    refine ⟨h.le, ?_⟩
    rw [h.bytes]
    exact suffix_append_self_iff.2 hend
  | error e =>
    obtain ⟨h0, rfl⟩ := h.error e rfl
    exact ⟨h0, append_nil _⟩

theorem returned_goWrite {r : Except Err ℕ} (hw : w ≤ data.length)
    (hend : data.take w <:+ s.accepted) (hr : (goWrite s i p f data w).2 = some (.write r)) :
    Returned data w s.accepted (goWrite s i p f data w).1.accepted r := by
  have hst := writeRound_stored f hw s.obj
  unfold goWrite at hr ⊢
  generalize writeRound f data w s.obj = x at hst hr
  obtain ⟨o', b, round⟩ := x
  cases round with
  | done r' =>
    cases hr
    exact hst.returned hend
  | more n => cases hr

/-- **Small writes are contiguous** while nothing goes in behind one that is halfway: when a write of at most the capacity
returns, what it reports is the end of the stream, and stays there. -/
theorem small_write_contiguous (s : State) (es₁ es₂ : List Event) (i w : ℕ) (p : Proc) (f : Fd) (pos : WriteAt)
    (woken sig : Bool) (data : List UInt8) (r : Except Err ℕ) (h0 : Fresh s)
    (hrun : Run.Valid step Undisturbed s (es₁ ++ .go i woken sig :: es₂))
    (hi : (final step s es₁).procs[i]? = some p) (hact : p.act = .writing f data w pos) (hsmall : data.length ≤ capacity)
    (hr : outcome (final step s es₁) (.go i woken sig) = some (.write r)) :
    let s₁ := final step s es₁
    let s₂ := final step (step s₁ (.go i woken sig)) es₂
    Returned data w s₁.accepted (step s₁ (.go i woken sig)).accepted r ∧
      (step s₁ (.go i woken sig)).accepted <+: s₂.accepted ∧ s₂.got <+: s₂.accepted := by
  intro s₁ s₂
  have hsized : Run.Valid step Sized s (es₁ ++ .go i woken sig :: es₂) := hrun.mono fun _ _ h => h.1
  have hinv := hsized.invariant (fun s e h hok => h.step e hok) h0.inv
  rw [Run.final_append] at hinv
  refine ⟨?_, accepted_run _ es₂, hinv.fifoOK.order⟩
  have hcont : Contiguous s₁ := (Run.valid_append.1 hrun).1.invariant (fun s e h hok => h.step e hok) h0.contiguous
  obtain ⟨hw, hend⟩ : w ≤ data.length ∧ data.take w <:+ s₁.accepted := by
    have hp := hcont i p hi
    rw [hact] at hp
    exact ⟨hp.1, hp.2 hsmall⟩
  have hgo : stepOut s₁ (.go i woken sig) = go s₁ i p woken sig := by simp only [s₁, stepOut, hi]
  rw [outcome, hgo] at hr
  rw [step, hgo]
  unfold go at hr ⊢
  rw [hact] at hr ⊢
  cases pos with
  | start => exact returned_goWrite hw hend hr
  | waking =>
    dsimp only at hr ⊢
    split at hr
    · split at hr
      · cases hr
        rw [if_pos ‹_›, if_pos ‹_›]
        exact returned_partial ⟨hw, hend⟩
      · cases hr
    · rw [if_neg ‹_›]
      exact returned_goWrite hw hend hr
  | asleep =>
    dsimp only at hr ⊢
    split at hr
    · cases hr
      rw [if_pos ‹_›]
      exact returned_partial ⟨hw, hend⟩
    · rw [if_neg ‹_›]
      exact returned_goWrite hw hend hr

/-- With `big` in the pipe, a write of two bytes is halfway in, a second writer sleeps and a third process reads. -/
def waitRun (big : List UInt8) : List Event :=
  [.fork 0, .fork 0, .write 0 1 big, .go 0 false false, .write 0 1 [1, 2], .go 0 false false, .write 1 1 [3],
    .go 1 false false, .go 1 false false, .read 2 0 2, .go 2 false false]

/-- The write of two bytes goes on, and its bytes are next to each other. -/
theorem small_write_contiguous_waited : ∃ big : List UInt8, big.length = 4095 ∧
    let s := step (final step newPipe (waitRun big)) (.go 0 false false)
    [1, 2] <:+ s.accepted ∧ s.accepted <+: (final step s [.go 1 false false]).accepted := by
  have hlen : (List.replicate 4095 (0 : UInt8)).length = 4095 := length_replicate
  generalize List.replicate 4095 (0 : UInt8) = big at hlen
  have hall : big.take 4095 = big := take_of_length_le hlen.le
  have hrun : Run.Valid step Undisturbed newPipe (waitRun big ++ [.go 0 false false, .go 1 false false]) := by
    simp [waitRun, Run.Valid, Undisturbed, Sized, storing, halfway, step, stepOut, go, goWrite, writeRound, ringWrite, goRead,
      readLoop, ringRead, RingBuf.len_push, capacity, newPipe, pipeCreate, createFds, State.setProc, pipeDup, hlen, hall]
    -- no write but the one that stores is halfway
    refine ⟨fun j hj hne => ?_, fun j hj hne => ?_, fun j hj hne => ?_, fun j hj hne => ?_⟩ <;>
      obtain rfl | rfl | rfl : j = 0 ∨ j = 1 ∨ j = 2 := by omega
    all_goals first | rfl | exact absurd rfl hne
  obtain ⟨p, f, pos, hi, hact, hr⟩ : ∃ p f pos, (final step newPipe (waitRun big)).procs[0]? = some p ∧
      p.act = .writing f [1, 2] 1 pos ∧
      outcome (final step newPipe (waitRun big)) (.go 0 false false) = some (.write (.ok 2)) := by
    simp [waitRun, final, outcome, step, stepOut, go, goWrite, writeRound, ringWrite, goRead, readLoop, ringRead,
      RingBuf.len_push, capacity, newPipe, pipeCreate, createFds, State.setProc, pipeDup, hlen, hall]
  obtain ⟨hret, hgrow, -⟩ := small_write_contiguous newPipe (waitRun big) [.go 1 false false] 0 1 p f pos false false [1, 2]
    (.ok 2) newPipe_fresh hrun hi hact (by decide) hr
  exact ⟨big, hlen, hret.2, hgrow⟩

/-- With `big` in the pipe, a write of two bytes is halfway in when the other process writes. -/
def mixRun (big : List UInt8) : List Event :=
  [.fork 0, .write 0 1 big, .go 0 false false, .write 0 1 [1, 2], .go 0 false false, .read 1 0 2, .go 1 false false,
    .write 1 1 [3], .go 1 false false]

/-- The write goes on, and the rest is read. -/
def drainRun : List Event := [.go 0 false false, .read 1 0 4096, .go 1 false false]

/-- The write of two bytes reports both of them, and the byte of the other process is read between them. -/
theorem small_write_split : ∃ big, outcome (final step newPipe (mixRun big)) (.go 0 false false) = some (.write (.ok 2)) ∧
      (final step newPipe (mixRun big ++ drainRun)).got = List.replicate 4095 0 ++ [1, 3, 2] := by
  have hlen : (List.replicate 4095 (0 : UInt8)).length = 4095 := length_replicate
  generalize List.replicate 4095 (0 : UInt8) = big at hlen ⊢
  have hall : big.take 4095 = big := take_of_length_le hlen.le
  obtain ⟨hout, hempty, hacc⟩ : outcome (final step newPipe (mixRun big)) (.go 0 false false) = some (.write (.ok 2)) ∧
      (final step newPipe (mixRun big ++ drainRun)).obj.bytes.length = 0 ∧
      (final step newPipe (mixRun big ++ drainRun)).accepted = big ++ [1, 3, 2] := by
    simp [mixRun, drainRun, final, outcome, step, stepOut, go, goWrite, writeRound, ringWrite, goRead, readLoop, ringRead,
      RingBuf.len_push, capacity, newPipe, pipeCreate, createFds, State.setProc, pipeDup, Object.bytes, hlen, hall]
  have hrun : Run.Valid step Sized newPipe (mixRun big ++ drainRun) := by simp [mixRun, drainRun, Run.Valid, Sized, hlen]
  have hbytes := (hrun.invariant (fun s e h hok => h.step e hok) newPipe_fresh.inv).bytes
  rw [eq_nil_of_length_eq_zero hempty, append_nil] at hbytes
  exact ⟨big, hout, hbytes.symm.trans hacc⟩

/-! ## Progress -/

section Progress

variable {data : List UInt8} {w n : ℕ}

/-- A round of a write that finds the pipe as `o`, and as `o'` when the lock is taken again,
returns, transfers a byte or sleeps. -/
def Progress (f : Fd) (data : List UInt8) (w : ℕ) (o o' : Object) : Prop :=
  (∃ r, (writeRound f data w o).2.2 = .done r) ∨ (writeRound f data w o).2.1 ≠ [] ∨ o'.ring.len = capacity

/-- A write of `data` whose rounds all made progress: `w` bytes are in, and `n` of the rounds did
not sleep. Between its sections the pipe may change in any way. -/
inductive Writing (f : Fd) (data : List UInt8) : ℕ → ℕ → Prop
  | start : data ≠ [] → Writing f data 0 0
  | round {w n w' : ℕ} {o o' : Object} : Writing f data w n → Progress f data w o o' →
      (writeRound f data w o).2.2 = .more w' → Writing f data w' (if o'.ring.len = capacity then n else n + 1)

/-- The full length, a part of it or an error. -/
def ReturnOK (data : List UInt8) : Except Err ℕ → Prop
  | .ok n => 0 < n ∧ n ≤ data.length
  | .error _ => True

/-- The round can return, or has bytes to write and room for them. -/
def Able (f : Fd) (data : List UInt8) (w : ℕ) (o : Object) : Prop :=
  o.readersOpen = 0 ∨ f.nonblock ∨ (data.length - w) % 2 ^ 32 ≠ 0 ∧ o.ring.len < capacity

theorem returnOK_partial (hw : w ≤ data.length) (e : Err) : ReturnOK data (partialWrite w e) := by
  unfold partialWrite
  split
  · exact ⟨by omega, hw⟩
  · trivial

theorem writeRound_cases (f : Fd) (o : Object) (hw : w < data.length) :
    (∃ r, (writeRound f data w o).2.2 = .done r ∧ ReturnOK data r ∧ Able f data w o) ∨
      (writeRound f data w o).2.2 = .more (w + (writeRound f data w o).2.1.length) ∧
        w + (writeRound f data w o).2.1.length < data.length ∧
        ((writeRound f data w o).2.1 ≠ [] ↔ Able f data w o) := by
  unfold writeRound
  rw [if_neg (by omega)]
  split
  · rename_i hr
    exact .inl ⟨_, rfl, returnOK_partial hw.le .epipe, .inl hr⟩
  rename_i hr
  simp only
  generalize hput : ringWrite (data.drop w) ((data.length - w) % 2 ^ 32) o = r
  have hlen : r.2.length = min (min ((data.length - w) % 2 ^ 32) (capacity - o.ring.len)) (data.length - w) := by
    rw [← hput, ringWrite, length_take, length_drop]
  split
  · exact .inl ⟨_, rfl, ⟨by omega, by omega⟩, .inr (.inr (by omega))⟩
  split
  · rename_i hnb
    exact .inl ⟨_, rfl, returnOK_partial (by omega) .eagain, .inr (.inl hnb)⟩
  · rename_i hnb
    refine .inr ⟨rfl, show w + r.2.length < data.length by omega, ?_⟩
    rw [← length_pos_iff, hlen, Able, or_iff_right hr, or_iff_right hnb]
    omega

theorem Writing.bounds (h : Writing f data w n) : n ≤ w ∧ w < data.length := by
  induction h with
  | start hne => exact ⟨le_refl 0, length_pos_iff.2 hne⟩
  | @round w n _ o o' _ hp hmore ih =>
    rcases writeRound_cases f o ih.2 with ⟨r, hr, -⟩ | ⟨hr, hlt, -⟩
    · rw [hr] at hmore
      cases hmore
    rw [hr] at hmore
    cases hmore
    refine ⟨?_, hlt⟩
    split
    · omega
    · rename_i hfull
      -- the round did not sleep, so it has written something
      rcases hp with ⟨r, hdone⟩ | hput | hfull'
      · rw [hr] at hdone
        cases hdone
      · have := length_pos_iff.2 hput
        omega
      · exact absurd hfull' hfull

theorem progress_iff (hw : w < data.length) : Progress f data w o o' ↔ Able f data w o ∨ o'.ring.len = capacity := by
  unfold Progress
  rcases writeRound_cases f o hw with ⟨r, hr, -, hable⟩ | ⟨hr, -, hput⟩
  · exact iff_of_true (.inl ⟨r, hr⟩) (.inl hable)
  · rw [hr, hput]
    simp

/-- **Transfers make progress while the length is not narrowed to 0**: in a write whose rounds
made progress so far, what it can return is the length, a part of it or an error, and the next round
makes progress exactly if it can return, has bytes left modulo 2³² and room, or sleeps. A read returns
nothing although there is a writer exactly if there are bytes and its length is narrowed to 0. -/
theorem transfers_progress (f : Fd) (data : List UInt8) :
    (∀ w n, Writing f data w n → n ≤ w ∧ w < data.length ∧ (∀ e, ReturnOK data (partialWrite w e)) ∧
      ∀ o, (∀ r, (writeRound f data w o).2.2 = .done r → ReturnOK data r) ∧
        ∀ o', Progress f data w o o' ↔ Able f data w o ∨ o'.ring.len = capacity) ∧
    ∀ len sig o, ((readLoop f len sig o).2 = some (.ok []) → o.writersOpen = 0) ↔
      o.writersOpen = 0 ∨ o.ring.len = 0 ∨ len % 2 ^ 32 ≠ 0 := by
  refine ⟨fun w n h => ?_, fun len sig o => ?_⟩
  · obtain ⟨hn, hw⟩ := h.bounds
    refine ⟨hn, hw, returnOK_partial hw.le, fun o => ⟨fun r hr => ?_, fun o' => progress_iff hw⟩⟩
    rcases writeRound_cases f o hw with ⟨r', hr', hok, -⟩ | ⟨hr', -⟩
    · rw [hr'] at hr
      cases hr
      exact hok
    · rw [hr'] at hr
      cases hr
  · rw [readLoop_empty]
    split <;> omega

/-- A blocking write of 2³² bytes into a new pipe does nothing and does not sleep, and a read of
2³² bytes returns 0 although there is a byte and a writer. -/
theorem narrowed_length_stalls :
    ¬ Progress ⟨false, true, false⟩ (List.replicate (2 ^ 32) 0) 0 (pipeCreate fun _ => 0) (pipeCreate fun _ => 0) ∧
      (readLoop ⟨true, false, false⟩ (2 ^ 32) false ⟨⟨fun _ => 7, 0, 1⟩, 1, 1, 2, false⟩).2 = some (.ok []) := by
  refine ⟨?_, rfl⟩
  rw [progress_iff (by rw [length_replicate]; decide)]
  unfold Able
  rw [length_replicate]
  simp [pipeCreate, capacity]

end Progress
end NeoOS.Pipe
