import NeoOS.Lib.Run
import NeoOS.Spec.Signal

/-!
# What user mode resumes with

A return from a signal handler takes RFLAGS and RIP from the frame, a delivery takes RIP from the
disposition and RFLAGS from the interrupted context. `userFlags` lets the I/O privilege level and
the nested-task flag through and nothing looks at RIP, so the two are safe exactly if these values
already are.

* `sigreturn_safe_iff`: for a frame.
* `step_cases`: what one event of a kernel exit can do.
* `enter_safe_iff`: for the entry of one handler.
* `resume_safe_iff`: both, and the second along every run of the loop.
-/

namespace NeoOS.Signal

open Bytes

variable {cpu : Fpu} {s : State cpu} {mapped : Bool} {e b : Word} {t : Task}

/-! ## The state user mode resumes in -/

/-- User mode runs in ring 3 with IOPL 0, NT clear, interrupts enabled and a canonical user RIP, and
SIGKILL and SIGSTOP are not blocked. -/
structure Safe (u : User) (blocked : Word) : Prop where
  cs : u.cs &&& 3 = 3
  ss : u.ss &&& 3 = 3
  iopl : u.regs.eflags &&& 0x3000 = 0
  nt : u.regs.eflags &&& 0x4000 = 0
  interrupts : u.regs.eflags &&& 0x200 ≠ 0
  rip : u.regs.rip < userAddrLimit
  mask : blocked &&& unblockable = 0

/-- The frame has IOPL 0, NT clear and a canonical user RIP. -/
def FrameOK (fr : Frame) : Prop :=
  fr.regs.eflags &&& 0x3000 = 0 ∧ fr.regs.eflags &&& 0x4000 = 0 ∧ fr.regs.rip < userAddrLimit

/-- RFLAGS of the context that a delivery interrupts. -/
def Exit.flags : Exit → Word
  | .syscall f _ _ => f.r11
  | .interrupt r => r.regs.eflags

/-- The signal an event is about. -/
def State.signal (s : State cpu) : Event → ℕ
  | .deliver _ => signalNextDeliverable s.task
  | .fault _ sig _ => sig
  | .others .. => 0

/-- The disposition of that signal. -/
def State.action (s : State cpu) (e : Event) : Action := s.task.actions (s.signal e)

/-- The event enters a handler. -/
def Enters (s : State cpu) (e : Event) : Prop := (step s e).log ≠ s.log

/-- The interrupted context has IOPL 0, NT clear and interrupts enabled, and the handler is at a
canonical user address. -/
def DeliverOK (s : State cpu) (e : Event) : Prop :=
  s.exit.flags &&& 0x3000 = 0 ∧ s.exit.flags &&& 0x4000 = 0 ∧ s.exit.flags &&& 0x200 ≠ 0 ∧ (s.action e).handler < userAddrLimit

/-! ## Flags -/

/-- A bit that the mask lets through and the constant does not set. -/
theorem masked_and {m c : Word} (hm : m &&& b = b) (hc : c &&& b = 0) : ((e &&& m) ||| c) &&& b = e &&& b := by
  rw [BitVec.and_or_distrib_right, BitVec.and_assoc, hm, hc]
  exact BitVec.or_zero

theorem returnFlags_and (hm : userFlags &&& b = b) (hc : ((1#64 <<< 9) ||| 2) &&& b = 0) : returnFlags e &&& b = e &&& b := by
  unfold returnFlags
  rw [BitVec.or_assoc]
  exact masked_and hm hc

theorem returnFlags_if (e : Word) : returnFlags e &&& 0x200 = 0x200 := by
  unfold returnFlags
  rw [BitVec.or_assoc, BitVec.and_or_distrib_right]
  have hc : ((1#64 <<< 9) ||| 2) &&& 0x200 = (0x200 : Word) := by decide
  rw [hc]
  apply BitVec.eq_of_getLsbD_eq
  intro i hi
  simp only [BitVec.getLsbD_or, BitVec.getLsbD_and]
  cases (0x200 : Word).getLsbD i <;> simp

theorem clear_df_and (hb : ~~~(1#64 <<< 10) &&& b = b) : e &&& ~~~(1#64 <<< 10) &&& b = e &&& b := by
  rw [BitVec.and_assoc, hb]

/-! ## Return -/

/-- **A return is safe exactly if the frame is.** -/
theorem sigreturn_safe_iff {m : Mem} {base : ℕ} {fp : cpu.State} :
    Safe (sigreturnFrame mapped m base fp).user (sigreturnFrame mapped m base fp).blocked ↔
      FrameOK (loadFrame (sigreturnMem cpu mapped m base) base) := by
  obtain ⟨fr, hfr⟩ : ∃ fr, fr = loadFrame (sigreturnMem cpu mapped m base) base := ⟨_, rfl⟩
  have huser : (sigreturnFrame mapped m base fp).user =
      ⟨{ fr.regs with eflags := returnFlags fr.regs.eflags }, userCs, userSs⟩ := by
    rw [hfr]
    rfl
  rw [huser, ← hfr]
  have hiopl : returnFlags fr.regs.eflags &&& 0x3000 = fr.regs.eflags &&& 0x3000 := returnFlags_and (by decide) (by decide)
  have hnt : returnFlags fr.regs.eflags &&& 0x4000 = fr.regs.eflags &&& 0x4000 := returnFlags_and (by decide) (by decide)
  constructor
  · intro h
    exact ⟨hiopl ▸ h.iopl, hnt ▸ h.nt, h.rip⟩
  · rintro ⟨h1, h2, h3⟩
    have hcs : userCs &&& 3 = 3 := by decide
    have hss : userSs &&& 3 = 3 := by decide
    refine ⟨hcs, hss, hiopl.trans h1, hnt.trans h2, ?_, h3, and_not_and _ _⟩
    rw [returnFlags_if]
    decide

/-! ## Delivery -/

/-- Two tasks that agree up to what is pending and the dispositions. -/
structure SameMask (t t' : Task) : Prop where
  blocked : t'.blocked = t.blocked
  savedBlocked : t'.savedBlocked = t.savedBlocked
  inSigsuspend : t'.inSigsuspend = t.inSigsuspend
  altstack : t'.altstack = t.altstack

theorem SameMask.oldmask {t' : Task} (h : SameMask t t') : oldmask t' = oldmask t := by
  unfold Signal.oldmask
  rw [h.inSigsuspend, h.savedBlocked, h.blocked]

theorem sameMask_takePending (sig : ℕ) (t : Task) : SameMask t (signalTakePending sig t).1 := by
  unfold signalTakePending
  split <;> exact ⟨rfl, rfl, rfl, rfl⟩

theorem actions_takePending (sig : ℕ) (t : Task) : (signalTakePending sig t).1.actions = t.actions := by
  unfold signalTakePending
  split <;> rfl

/-- No handler is entered: the frames, user memory and the context stay. -/
structure Kept (s s' : State cpu) : Prop where
  log : s'.log = s.log
  exit : s'.exit = s.exit
  mem : s'.mem = s.mem
  fp : s'.fp = s.fp
  task : SameMask s.task s'.task

/-- The handler `ka` of `sig` is entered, with a frame at `sp` and the extended state at `fpaddr`. -/
structure Entered (s : State cpu) (sig : ℕ) (ka : Action) (info : Info) (t : Task) (fpaddr sp : Word) (s' : State cpu) :
    Prop where
  handler : ka.handler ≠ sigDfl ∧ ka.handler ≠ sigIgn
  task : SameMask s.task t
  layout : (fpaddr, sp) = frameLayout cpu (s.exit.context ka).regs.rsp ka s.task.altstack
  range : userRange sp (fpaddr + BitVec.ofNat 64 (cpu.size + 4) - sp)
  result : s' = { s with
    exit := s.exit.put (enterContext sig ka sp (s.exit.context ka))
    task := enterMask sig ka t
    mem := writeFrame cpu s.mem sp.toNat fpaddr.toNat
      (frameWord ka.restorer ⟨s.task.altstack, (s.exit.context ka).regs, fpaddr, oldmask s.task⟩ (s.exit.context ka).err
        (s.exit.context ka).trapno info) (cpu.image s.fp)
    log := ⟨ka, fpaddr, sp, s.context⟩ :: s.log }

theorem deliverTo_cases {sig : ℕ} {info : Info} (ht : SameMask s.task t) (ha : t.actions = s.task.actions) :
    Kept s (deliverTo mapped sig info t s) ∨
      ∃ fpaddr sp, Entered s sig (s.task.actions sig) info t fpaddr sp (deliverTo mapped sig info t s) := by
  have hsame : SameMask s.task s.task := ⟨rfl, rfl, rfl, rfl⟩
  unfold deliverTo
  rw [ha]
  simp only
  generalize hd : deliverOne cpu mapped sig info (s.exit.context (s.task.actions sig)) t s.mem s.fp = d
  unfold deliverOne at hd
  rw [ha] at hd
  simp only at hd
  split at hd
  · subst hd
    exact .inl ⟨rfl, rfl, rfl, rfl, ht⟩
  rename_i hign
  split at hd
  · split at hd
    · subst hd
      exact .inl ⟨rfl, rfl, rfl, rfl, hsame⟩
    · subst hd
      exact .inl ⟨rfl, rfl, rfl, rfl, ht⟩
  rename_i hdfl
  split at hd
  · subst hd
    exact .inl ⟨rfl, rfl, rfl, rfl, hsame⟩
  split at hd
  · rename_i hrange
    simp only [Bool.and_eq_true] at hrange
    subst hd
    rw [ht.altstack] at hrange ⊢
    rw [ht.oldmask]
    exact .inr ⟨_, _, ⟨hdfl, hign⟩, ht, rfl, hrange.1, rfl⟩
  · subst hd
    exact .inl ⟨rfl, rfl, rfl, rfl, hsame⟩

/-- **What an event can do**: enter the handler of its signal, or leave the context alone. -/
theorem step_cases (s : State cpu) (e : Event) : Kept s (step s e) ∨
      ∃ info t fpaddr sp, Entered s (s.signal e) (s.action e) info t fpaddr sp (step s e) := by
  have hsame : SameMask s.task s.task := ⟨rfl, rfl, rfl, rfl⟩
  unfold step
  split
  · exact .inl ⟨rfl, rfl, rfl, rfl, hsame⟩
  cases e with
  | deliver mapped =>
    unfold deliverRound
    simp only
    split
    · exact .inl ⟨rfl, rfl, rfl, rfl, hsame⟩
    have ht := sameMask_takePending (signalNextDeliverable s.task) s.task
    obtain h | ⟨fpaddr, sp, h⟩ := deliverTo_cases ht (actions_takePending _ _)
    · exact .inl h
    · exact .inr ⟨_, _, fpaddr, sp, h⟩
  | fault mapped sig info =>
    simp only
    unfold signalRaiseFault
    split
    · exact .inl ⟨rfl, rfl, rfl, rfl, hsame⟩
    split
    · exact .inl ⟨rfl, rfl, rfl, rfl, hsame⟩
    obtain h | ⟨fpaddr, sp, h⟩ := deliverTo_cases hsame rfl
    · exact .inl h
    · exact .inr ⟨_, _, fpaddr, sp, h⟩
  | others pending procPending queued procQueued actions => exact .inl ⟨rfl, rfl, rfl, rfl, ⟨rfl, rfl, rfl, rfl⟩⟩

/-- The flags of the context that is handed to `deliver_one`. -/
theorem context_eflags (x : Exit) (ka : Action) : (x.context ka).regs.eflags = x.flags := by
  cases x with
  | syscall f num retval =>
    unfold Exit.context
    simp only
    split <;> rfl
  | interrupt r => rfl

theorem resume_put_flags {x : Exit} {sc : SigContext} (hm : userFlags &&& b = b) (hc : (2 : Word) &&& b = 0) :
    (x.put sc).resume.regs.eflags &&& b = sc.regs.eflags &&& b := by
  cases x with
  | syscall f num retval => exact masked_and hm hc
  | interrupt r => rfl

theorem resume_put_rip (x : Exit) (sc : SigContext) : (x.put sc).resume.regs.rip = sc.regs.rip := by
  cases x with
  | syscall | interrupt => rfl

theorem resume_ring3 (x : Exit) : x.resume.cs &&& 3 = 3 ∧ x.resume.ss &&& 3 = 3 := by
  cases x with
  | syscall f num retval =>
    constructor
    · show (((0x28 + 16) ||| 3 : BitVec 16)) &&& 3 = 3
      decide
    · show (((0x28 + 8) ||| 3 : BitVec 16)) &&& 3 = 3
      decide
  | interrupt r => exact r.ring3

/-- **The entry of a handler is safe exactly if the interrupted flags and the handler are.** -/
theorem enter_safe_iff {e : Event} (h : Enters s e) : Safe (step s e).exit.resume (step s e).task.blocked ↔ DeliverOK s e := by
  obtain hk | ⟨info, t, fpaddr, sp, he⟩ := step_cases s e
  · exact absurd hk.log h
  rw [he.result]
  generalize hsc : enterContext (s.signal e) (s.action e) sp (s.exit.context (s.action e)) = sc
  -- every flag but DF is the interrupted one
  have hflags : ∀ {b : Word}, userFlags &&& b = b → (2 : Word) &&& b = 0 → ~~~(1#64 <<< 10) &&& b = b →
      (s.exit.put sc).resume.regs.eflags &&& b = s.exit.flags &&& b := by
    intro b h1 h2 h3
    rw [resume_put_flags h1 h2, ← hsc]
    show (s.exit.context (s.action e)).regs.eflags &&& ~~~(1#64 <<< 10) &&& b = s.exit.flags &&& b
    rw [clear_df_and h3, context_eflags]
  have hiopl : (s.exit.put sc).resume.regs.eflags &&& 0x3000 = s.exit.flags &&& 0x3000 :=
    hflags (by decide) (by decide) (by decide)
  have hnt : (s.exit.put sc).resume.regs.eflags &&& 0x4000 = s.exit.flags &&& 0x4000 :=
    hflags (by decide) (by decide) (by decide)
  have hif : (s.exit.put sc).resume.regs.eflags &&& 0x200 = s.exit.flags &&& 0x200 :=
    hflags (by decide) (by decide) (by decide)
  have hrip : (s.exit.put sc).resume.regs.rip = (s.action e).handler := by
    rw [resume_put_rip, ← hsc]
    rfl
  have hring := resume_ring3 (s.exit.put sc)
  constructor
  · intro hs
    refine ⟨hiopl ▸ hs.iopl, hnt ▸ hs.nt, hif ▸ hs.interrupts, ?_⟩
    rw [← hrip]
    exact hs.rip
  · rintro ⟨h1, h2, h3, h4⟩
    refine ⟨hring.1, hring.2, hiopl.trans h1, hnt.trans h2, ?_, ?_, and_not_and _ _⟩
    · rw [hif]
      exact h3
    · rw [hrip]
      exact h4

/-- Conditions that agree at every step allow the same runs. -/
theorem valid_congr {σ α : Type*} {step : σ → α → σ} {ok ok' : σ → α → Prop} (h : ∀ s a, ok s a ↔ ok' s a) (s : σ)
    (as : List α) : Run.Valid step ok s as ↔ Run.Valid step ok' s as :=
  ⟨Run.Valid.mono fun s a => (h s a).1, Run.Valid.mono fun s a => (h s a).2⟩

/-- **Resuming user mode**: a return from a handler is safe exactly if the frame has IOPL 0, NT clear and
a canonical user RIP, and along every run of the delivery loop each entry of a handler is safe exactly if
the context it interrupts and the handler's address are. -/
theorem resume_safe_iff (cpu : Fpu) : (∀ (mapped mappedFp : Bool) (userRsp : Word) (m : Mem) (fp : cpu.State)
    (u : Machine cpu),
      signalDoSigreturn mapped mappedFp userRsp m fp = some u → (Safe u.user u.blocked ↔
          FrameOK (loadFrame (sigreturnMem cpu mappedFp m (userRsp - 8).toNat) (userRsp - 8).toNat))) ∧
      ∀ (s : State cpu) (es : List Event),
        Run.Valid step (fun s e => Enters s e → Safe (step s e).exit.resume (step s e).task.blocked) s es ↔
          Run.Valid step (fun s e => Enters s e → DeliverOK s e) s es := by
  constructor
  · intro mapped mappedFp userRsp m fp u hu
    unfold signalDoSigreturn at hu
    simp only at hu
    split at hu
    · cases hu
      exact sigreturn_safe_iff
    · cases hu
  · intro s es
    apply valid_congr
    intro s e
    exact forall_congr' fun h => enter_safe_iff h

/-- A CPU with the legacy area only: the words up to the reserved ones are the state. -/
def legacyFpu : Fpu where
  State := Fin 58 → Word
  size := 512
  xcr0 := 0
  image st k := if h : k < 58 then st ⟨k, h⟩ else 0
  restore area := fun i => area i
  size_words := rfl
  size_ge := Nat.le_refl _
  size_le := by decide
  restore_image := by
    intro st area h
    funext i
    rw [h i (by have := i.2; omega) (.inl i.2), dif_pos i.2]
  header_enabled := by
    intro h
    exact absurd h (Nat.lt_irrefl _)
  header_clear := by
    intro h
    exact absurd h (Nat.lt_irrefl _)

def zeroFp : legacyFpu.State := fun _ => (0 : Word)

/-- A frame at 0x7000 whose words are all 0 except for RIP and RFLAGS. -/
def returnMem (rip eflags : Word) : Mem :=
  storeWords (fun _ => 0) 0x7000 70 fun k => if k = 22 then rip else if k = 23 then eflags else 0

/-- The return from a handler to 0x400000 with interrupts enabled is safe. -/
theorem resume_safe_plain :
    ∃ u, signalDoSigreturn true true 0x7008 (returnMem 0x400000 0x202) zeroFp = some u ∧ Safe u.user u.blocked := by
  refine ⟨_, rfl, ?_⟩
  rw [(resume_safe_iff legacyFpu).1 true true 0x7008 (returnMem 0x400000 0x202) zeroFp _ rfl]
  unfold FrameOK
  decide

/-- **A frame with IOPL 3 returns to user mode with IOPL 3.** -/
theorem sigreturn_grants_iopl : ∃ u, signalDoSigreturn true true 0x7008 (returnMem 0x400000 0x3202) zeroFp = some u ∧
      u.user.regs.eflags &&& 0x3000 = 0x3000 ∧ ¬Safe u.user u.blocked := by
  refine ⟨_, rfl, by decide, ?_⟩
  intro h
  exact absurd h.iopl (by decide)

end NeoOS.Signal
