import NeoOS.Proof.SigReturn

/-!
# Stacked handlers unwind to the interrupted context

Each handler that a kernel exit enters finds the context of the one before in its frame, so returning
in nesting order leads back to the context that the exit started from.

* `returns_of_hasFrame`: a frame that is still in memory returns to the context it was built from.
* `Good.step`: entering one more handler keeps the frames and the chain.
* `delivery_transparent`: the whole exit.
-/

namespace NeoOS.Signal

open Bytes List
open Run (final)

variable {cpu : Fpu} {s s₀ s' : State cpu} {e : Event} {fpaddr sp mask : Word} {ka : Action} {fpbase a k sig : ℕ}
  {words image : ℕ → Word} {x : Exit} {info : Info} {t : Task}

/-! ## Handlers run and return -/

/-- Returning through the frame `e` with its bytes as they are in `mem` resumes `c`, whatever the handler
did elsewhere. -/
def Returns (mem : Mem) (e : Entry cpu) (c : Machine cpu) : Prop :=
  ∀ (m : Mem) (fp : cpu.State), (∀ a, e.sp.toNat + 8 ≤ a → a < e.fpaddr.toNat + cpu.size → m a = mem a) →
    signalDoSigreturn true true (e.sp + 8) m fp = some c

/-- User mode resumes at the first instruction of the handler, with its frame on top of the stack. -/
def Starts (c : Machine cpu) (e : Entry cpu) : Prop :=
  c.user.regs.rip = e.action.handler ∧ c.user.regs.rsp = e.sp

/-- What the outermost handler returns to: the context of the exit, back on the `syscall` instruction if the
call returned -EINTR and the handler has SA_RESTART. -/
def afterReturn (s₀ : State cpu) (e : Entry cpu) : Machine cpu :=
  match s₀.exit with
  | .syscall _ num retval =>
    if retval = eintr ∧ has e.action.flags saRestart then
      { s₀.context with user := { s₀.context.user with regs := restartRegs num s₀.context.user.regs } }
    else s₀.context
  | .interrupt _ => s₀.context

/-- From `c` the handlers run one after the other, the last one entered first: each returns to what it
interrupted, which is the start of the one before, and the outermost one to the context of the exit. -/
def Unwinds (returns : Entry cpu → Machine cpu → Prop) (s₀ : State cpu) : Machine cpu → List (Entry cpu) → Prop
  | c, [] => c = s₀.context
  | c, e :: rest =>
    Starts c e ∧ returns e (if rest.isEmpty then afterReturn s₀ e else e.before) ∧ Unwinds returns s₀ e.before rest

/-- User mode as the exit resumes it. -/
def State.machine (s : State cpu) : Machine cpu := ⟨s.exit.resume, s.task.blocked, s.task.altstack, s.fp⟩

/-! ## The condition -/

/-- The flags and selectors of the exit are such as `signal_do_sigreturn` restores: IF is set, no flag is
outside the mask and the selectors are the user's. -/
structure Exit.Plain (x : Exit) : Prop where
  flags : returnFlags x.sc.regs.eflags = x.resume.regs.eflags
  cs : x.resume.cs = userCs
  ss : x.resume.ss = userSs

/-- The frame at `sp` with its extended state at `fpaddr` meets none of the frames `es`. -/
def Apart (cpu : Fpu) (fpaddr sp : Word) (es : List (Entry cpu)) : Prop :=
  ∀ e ∈ es, fpaddr.toNat + cpu.size + 4 ≤ e.sp.toNat ∨ e.fpaddr.toNat + cpu.size + 4 ≤ sp.toNat

/-- Before an event: no system call is restarted under a second handler, the new frame does not fall on an
earlier one, and a `sigsuspend` is left by a handler. -/
structure StepOK (s : State cpu) (e : Event) : Prop where
  restart : s.log ≠ [] → s.exit.restarts (s.action e) = false
  apart : Apart cpu (frameLayout cpu s.exit.sc.regs.rsp (s.action e) s.task.altstack).1
    (frameLayout cpu s.exit.sc.regs.rsp (s.action e) s.task.altstack).2 s.log
  suspended : s.task.inSigsuspend → match e with
    | .deliver _ => (s.action e).handler ≠ sigDfl ∧ (s.action e).handler ≠ sigIgn
    | .fault .. => True
    | .others pending procPending _ _ _ =>
      signalNextDeliverable { s.task with pending := pending, procPending := procPending } ≠ 0

/-! ## Layout -/

/-- Where the pieces of a frame lie. -/
structure Placed (cpu : Fpu) (fpaddr sp : Word) : Prop where
  below : sp.toNat + 568 ≤ fpaddr.toNat
  limit : fpaddr.toNat + cpu.size + 4 ≤ userAddrLimit.toNat
  aligned : fpaddr &&& 63 = 0

theorem layout_placed {rsp : Word} {alt : Stack} (h : (fpaddr, sp) = frameLayout cpu rsp ka alt)
    (hr : userRange sp (fpaddr + BitVec.ofNat 64 (cpu.size + 4) - sp)) : Placed cpu fpaddr sp := by
  unfold frameLayout at h
  simp only [Prod.mk.injEq] at h
  obtain ⟨hfp, hsp⟩ := h
  rw [← hfp] at hsp
  have hal : fpaddr &&& 63 = 0 := by
    rw [hfp]
    exact and_not_and _ _
  have hle := and_toNat_le (fpaddr - 560) (~~~0xF)
  have hge := toNat_le_and_not (fpaddr - 560) 0xF
  generalize (fpaddr - 560) &&& ~~~(0xF : Word) = b at hsp hle hge
  have hsum : sp + (fpaddr + BitVec.ofNat 64 (cpu.size + 4) - sp) = fpaddr + BitVec.ofNat 64 (cpu.size + 4) := by
    bv_omega
  unfold userRange at hr
  rw [hsum] at hr
  simp only [Bool.and_eq_true, Bool.not_eq_eq_eq_not, Bool.not_true, decide_eq_false_iff_not] at hr
  have hsize := cpu.size_le
  have hlim : userAddrLimit.toNat = 2 ^ 47 := by decide
  have hf : (0xF : Word).toNat = 15 := rfl
  have hn : (BitVec.ofNat 64 (cpu.size + 4)).toNat = cpu.size + 4 := by
    rw [BitVec.toNat_ofNat]
    omega
  rw [BitVec.lt_def, BitVec.lt_def, BitVec.toNat_add, hn, hlim] at hr
  have hsub : (fpaddr - 560).toNat = (2 ^ 64 - 560 + fpaddr.toNat) % 2 ^ 64 := by
    rw [BitVec.toNat_sub]
    rfl
  have hspn : sp.toNat = (2 ^ 64 - 8 + b.toNat) % 2 ^ 64 := by
    rw [hsp, BitVec.toNat_sub]
    rfl
  refine ⟨?_, ?_, hal⟩ <;> omega

/-! ## Frames in memory -/

variable {m m' mem : Mem} {base : ℕ} {en : Entry cpu} {c : Machine cpu}

/-- The frame `en` is in memory and holds the context `c`. -/
structure HasFrame (m : Mem) (en : Entry cpu) (c : Machine cpu) : Prop where
  placed : Placed cpu en.fpaddr en.sp
  user : (⟨{ (loadFrame m en.sp.toNat).regs with eflags := returnFlags (loadFrame m en.sp.toNat).regs.eflags },
    userCs, userSs⟩ : User) = c.user
  stack : (loadFrame m en.sp.toNat).stack = c.altstack
  fpstate : (loadFrame m en.sp.toNat).fpstate = en.fpaddr
  mask : (loadFrame m en.sp.toNat).sigmask = c.blocked
  maskable : c.blocked &&& unblockable = 0
  state : ∀ k, k < cpu.size / 8 → k < 58 ∨ 64 ≤ k → word m (en.fpaddr.toNat + 8 * k) = cpu.image c.fp k

theorem loadFrame_congr (h : ∀ a, base + 24 ≤ a → a < base + 312 → m' a = m a) : loadFrame m' base = loadFrame m base := by
  have hw : ∀ k, 3 ≤ k → k < 39 → word m' (base + 8 * k) = word m (base + 8 * k) := by
    intro k h3 h39
    apply word_congr
    intro i hi
    exact h _ (by omega) (by omega)
  unfold loadFrame
  simp only [hw _ (by decide : 3 ≤ 3) (by decide), hw, Nat.reduceLeDiff, Nat.reduceLT]

theorem HasFrame.congr (h : HasFrame m en c)
    (hm : ∀ a, en.sp.toNat + 8 ≤ a → a < en.fpaddr.toNat + cpu.size → m' a = m a) : HasFrame m' en c := by
  have hb := h.placed.below
  have hf : loadFrame m' en.sp.toNat = loadFrame m en.sp.toNat := by
    apply loadFrame_congr
    intro a h1 h2
    exact hm a (by omega) (by omega)
  refine ⟨h.placed, ?_, ?_, ?_, ?_, h.maskable, ?_⟩
  · rw [hf]
    exact h.user
  · rw [hf]
    exact h.stack
  · rw [hf]
    exact h.fpstate
  · rw [hf]
    exact h.mask
  · intro k hk hsw
    rw [← h.state k hk hsw]
    apply word_congr
    intro i hi
    exact hm _ (by omega) (by omega)

theorem loadFrame_storeWords (pretcode : Word) (fr : Frame) (err trapno : Word) (info : Info) :
    loadFrame (storeWords m base 70 (frameWord pretcode fr err trapno info)) base = fr := by
  have hw : ∀ k, k < 70 → word (storeWords m base 70 (frameWord pretcode fr err trapno info)) (base + 8 * k) =
      frameWord pretcode fr err trapno info k := fun k hk => word_storeWords hk
  unfold loadFrame
  simp only [hw, Nat.reduceLT]
  rfl

theorem writeFrame_of_not_mem (hb : base + 560 ≤ fpbase)
    (h : a < base ∨ fpbase + cpu.size + 4 ≤ a) : writeFrame cpu m base fpbase words image a = m a := by
  unfold writeFrame storeWords
  rw [store_of_not_mem (by omega), store_of_not_mem (by omega), store_of_not_mem (by omega)]

theorem word_writeFrame_image (hb : base + 560 ≤ fpbase) (hk : k < cpu.size / 8)
    (hsw : k < 58 ∨ 64 ≤ k) : word (writeFrame cpu m base fpbase words image) (fpbase + 8 * k) = image k := by
  have hout : word (writeFrame cpu m base fpbase words image) (fpbase + 8 * k) =
      word (storeWords m fpbase (cpu.size / 8) (swImage cpu image)) (fpbase + 8 * k) := by
    apply word_congr
    intro i hi
    unfold writeFrame
    rw [storeWords, store_of_not_mem (by omega), store_of_not_mem (by omega)]
  rw [hout, word_storeWords hk]
  unfold swImage
  rw [if_neg (by omega), if_neg (by omega), if_neg (by omega)]

/-! ## Return -/

theorem and_not_of_disjoint {x : Word} (h : x &&& mask = 0) : x &&& ~~~mask = x := by
  have hsum := and_not_add x mask
  rw [h] at hsum
  simpa using hsum

theorem maskHeader_of_lt (h : a < fpbase + 512) : maskHeader cpu m fpbase a = m a := by
  unfold maskHeader
  split
  · exact store_of_not_mem (.inl h)
  · rfl

/-- Masking the header changes nothing in a saved image. -/
theorem word_maskHeader {st : cpu.State} (hk : k < cpu.size / 8) (hsw : k < 58 ∨ 64 ≤ k)
    (h : ∀ k, k < cpu.size / 8 → k < 58 ∨ 64 ≤ k → word m (fpbase + 8 * k) = cpu.image st k) :
    word (maskHeader cpu m fpbase) (fpbase + 8 * k) = cpu.image st k := by
  unfold maskHeader
  split
  · rename_i hsize
    by_cases hin : 64 ≤ k ∧ k < 72
    · obtain ⟨j, rfl⟩ : ∃ j, k = 64 + j := ⟨k - 64, by omega⟩
      have hpos : fpbase + 8 * (64 + j) = fpbase + 512 + 8 * j := by omega
      rw [hpos, word_storeWords (by omega)]
      split
      · rename_i hj
        subst hj
        have h64 := h 64 (by omega) (by omega)
        have hz : fpbase + 8 * 64 = fpbase + 512 := by omega
        rw [h64]
        exact cpu.header_enabled hsize st
      · exact (cpu.header_clear hsize st _ (by omega) (by omega)).symm
    · rw [← h k hk hsw]
      apply word_congr
      intro i hi
      exact store_of_not_mem (by omega)
  · exact h k hk hsw

theorem usesFpstate_placed (h : Placed cpu fpaddr sp) : usesFpstate cpu fpaddr true := by
  have hb := h.below
  have hl := h.limit
  have hlim : userAddrLimit.toNat = 2 ^ 47 := by decide
  have hne : fpaddr ≠ 0 := by
    intro h0
    rw [h0] at hb
    simp at hb
  have hn : (BitVec.ofNat 64 cpu.size).toNat = cpu.size := by
    rw [BitVec.toNat_ofNat]
    omega
  unfold usesFpstate userRange
  simp only [Bool.and_eq_true, bne_iff_ne, ne_eq, beq_iff_eq, Bool.not_eq_eq_eq_not, Bool.not_true,
    decide_eq_false_iff_not, BitVec.lt_def, BitVec.toNat_add, hn, hlim]
  refine ⟨⟨⟨hne, h.aligned⟩, ?_⟩, trivial⟩
  omega

/-- **A frame that is still in memory returns to the context it was built from.** -/
theorem returns_of_hasFrame (h : HasFrame mem en c) : Returns mem en c := by
  intro m fp hm
  have hf := h.congr hm
  have hb := hf.placed.below
  have hl := hf.placed.limit
  have hlim : userAddrLimit.toNat = 2 ^ 47 := by decide
  have hsp : en.sp + 8 - 8 = en.sp := by bv_omega
  have hrange : userRange en.sp 560 := by
    unfold userRange
    simp only [Bool.and_eq_true, Bool.not_eq_eq_eq_not, Bool.not_true, decide_eq_false_iff_not, BitVec.lt_def,
      BitVec.toNat_add, hlim]
    have h560 : (560 : Word).toNat = 560 := rfl
    rw [h560]
    omega
  have huses := usesFpstate_placed hf.placed
  -- the header lies above the frame, so the registers are read as they were
  have hmem : sigreturnMem cpu true m en.sp.toNat = maskHeader cpu m en.fpaddr.toNat := by
    unfold sigreturnMem
    simp only [hf.fpstate, huses, if_true]
  have hload : loadFrame (maskHeader cpu m en.fpaddr.toNat) en.sp.toNat = loadFrame m en.sp.toNat := by
    apply loadFrame_congr
    intro a h1 h2
    exact maskHeader_of_lt (by omega)
  have hrestore : cpu.restore (fun k => word (maskHeader cpu m en.fpaddr.toNat) (en.fpaddr.toNat + 8 * k)) = c.fp := by
    apply cpu.restore_image
    intro k hk hsw
    exact word_maskHeader hk hsw hf.state
  unfold signalDoSigreturn
  simp only [hsp, hrange, Bool.and_self, if_true]
  unfold sigreturnFrame
  simp only [hmem, hload, huses, if_true, hf.fpstate, hrestore, hf.mask, hf.stack, hf.user, and_not_of_disjoint hf.maskable]

/-! ## Entering a handler -/

theorem masked_clear_df {e c : Word} (hc : c &&& ~~~(1#64 <<< 10) = c) :
    (e &&& ~~~(1#64 <<< 10) &&& mask) ||| c = ((e &&& mask) ||| c) &&& ~~~(1#64 <<< 10) := by
  rw [BitVec.and_or_distrib_right, hc, BitVec.and_assoc, BitVec.and_assoc, BitVec.and_comm mask]

theorem returnFlags_clear_df (e : Word) : returnFlags (e &&& ~~~(1#64 <<< 10)) = returnFlags e &&& ~~~(1#64 <<< 10) := by
  unfold returnFlags
  rw [BitVec.or_assoc, BitVec.or_assoc]
  exact masked_clear_df (by decide)

theorem Exit.Plain.put (h : x.Plain) (sig : ℕ) (ka : Action) (sp : Word) :
    (x.put (enterContext sig ka sp (x.context ka))).Plain := by
  have he := context_eflags x ka
  have hf := h.flags
  cases x with
  | syscall f num retval =>
    refine ⟨?_, rfl, rfl⟩
    show returnFlags ((Exit.context (.syscall f num retval) ka).regs.eflags &&& ~~~(1#64 <<< 10)) =
      ((Exit.context (.syscall f num retval) ka).regs.eflags &&& ~~~(1#64 <<< 10) &&& userFlags) ||| 2
    rw [he, returnFlags_clear_df, masked_clear_df (by decide)]
    exact congrArg (· &&& ~~~(1#64 <<< 10)) hf
  | interrupt r =>
    refine ⟨?_, h.cs, h.ss⟩
    show returnFlags (r.regs.eflags &&& ~~~(1#64 <<< 10)) = r.regs.eflags &&& ~~~(1#64 <<< 10)
    rw [returnFlags_clear_df]
    exact congrArg (· &&& ~~~(1#64 <<< 10)) hf

/-- What a return from the handler `ka` resumes, if the handler was entered from `x`. -/
def Exit.returned (x : Exit) (ka : Action) : User :=
  match x with
  | .syscall _ num _ => if x.restarts ka then { x.resume with regs := restartRegs num x.resume.regs } else x.resume
  | .interrupt _ => x.resume

theorem returned_of_not_restarts (h : x.restarts ka = false) : x.returned ka = x.resume := by
  cases x with
  | syscall f num retval =>
    unfold Exit.returned
    simp only [h]
    rfl
  | interrupt r => rfl

theorem Exit.Plain.returned (h : x.Plain) (ka : Action) :
    (⟨{ (x.context ka).regs with eflags := returnFlags (x.context ka).regs.eflags }, userCs, userSs⟩ : User) =
      x.returned ka := by
  have hf := h.flags
  have hcs := h.cs
  have hss := h.ss
  cases x with
  | syscall f num retval =>
    unfold Exit.returned Exit.context
    cases hr : (Exit.syscall f num retval).restarts ka with
    | true =>
      show (⟨{ restartRegs num (scFromSyscall f retval).regs with eflags := returnFlags f.r11 }, userCs, userSs⟩ : User) = _
      have hf' : returnFlags f.r11 = (f.r11 &&& userFlags) ||| 2 := hf
      rw [hf']
      rfl
    | false =>
      show (⟨{ (scFromSyscall f retval).regs with eflags := returnFlags f.r11 }, userCs, userSs⟩ : User) = _
      have hf' : returnFlags f.r11 = (f.r11 &&& userFlags) ||| 2 := hf
      rw [hf']
      rfl
  | interrupt r =>
    show (⟨{ r.regs with eflags := returnFlags r.regs.eflags }, userCs, userSs⟩ : User) = { r with }
    have hf' : returnFlags r.regs.eflags = r.regs.eflags := hf
    have hcs' : r.cs = userCs := hcs
    have hss' : r.ss = userSs := hss
    rw [hf', hcs', hss']

theorem afterReturn_eq {before : Machine cpu} (h : ka.handler ≠ sigDfl ∧ ka.handler ≠ sigIgn) :
    afterReturn s₀ ⟨ka, fpaddr, sp, before⟩ = { s₀.context with user := s₀.exit.returned ka } := by
  unfold afterReturn Exit.returned Exit.restarts
  split
  · rename_i f num retval hx
    simp only [hx, Bool.and_eq_true, beq_iff_eq, bne_iff_ne, ne_eq, h.1, h.2, not_false_eq_true, and_true]
    split
    · unfold State.context
      rw [hx]
    · unfold State.context
      rw [hx]
  · rename_i r hx
    unfold State.context
    rw [hx]

theorem context_rsp (x : Exit) (ka : Action) : (x.context ka).regs.rsp = x.sc.regs.rsp := by
  cases x with
  | syscall f num retval =>
    unfold Exit.context
    simp only
    split <;> rfl
  | interrupt r => rfl

theorem resume_put_rsp (x : Exit) (sc : SigContext) : (x.put sc).resume.regs.rsp = sc.regs.rsp := by
  cases x with
  | syscall | interrupt => rfl

/-! ## The run -/

theorem Unwinds.mono {r r' : Entry cpu → Machine cpu → Prop} {log : List (Entry cpu)}
    (hr : ∀ en ∈ log, ∀ c, r en c → r' en c) (h : Unwinds r s₀ c log) : Unwinds r' s₀ c log := by
  induction log generalizing c with
  | nil => exact h
  | cons en rest ih =>
    obtain ⟨hs, hret, hrest⟩ := h
    refine ⟨hs, hr en mem_cons_self _ hret, ih ?_ hrest⟩
    intro en' hen' c'
    exact hr en' (mem_cons_of_mem _ hen') c'

/-- What a kernel exit keeps. -/
structure Good (s₀ s : State cpu) : Prop where
  plain : s.exit.Plain
  blocked : s.task.blocked &&& unblockable = 0
  saved : s.task.savedBlocked &&& unblockable = 0
  suspended : s.task.inSigsuspend → signalNextDeliverable s.task ≠ 0
  first : s.log = [] → s.exit = s₀.exit
  unwinds : Unwinds (HasFrame s.mem) s₀ s.context s.log

theorem Good.oldmask (h : Good s₀ s) : oldmask s.task &&& unblockable = 0 := by
  unfold Signal.oldmask
  split
  · exact h.saved
  · exact h.blocked

/-- A handler that is not entered leaves the pending signals, or its disposition says so. -/
theorem deliverTo_task {mapped : Bool} (hh : ((t.actions sig).handler ≠ sigDfl ∧ (t.actions sig).handler ≠ sigIgn) ∨
    t = s.task)
    (hlog : (deliverTo mapped sig info t s).log = s.log) : (deliverTo mapped sig info t s).task = s.task := by
  unfold deliverTo at hlog ⊢
  simp only at hlog ⊢
  split
  · rfl
  · rename_i hd
    rcases hh with ⟨hdfl, hign⟩ | ht
    · unfold deliverOne at hd
      simp only [hdfl, hign, if_false] at hd
      split at hd
      · cases hd
      · split at hd <;> cases hd
    · exact ht
  · rename_i hd
    rw [hd] at hlog
    exact absurd hlog (cons_ne_self _ _)

theorem step_suspended (hok : StepOK s e) (hsus : s.task.inSigsuspend) (hnext : signalNextDeliverable s.task ≠ 0)
    (hlog : (step s e).log = s.log) : signalNextDeliverable (step s e).task ≠ 0 := by
  have hc := hok.suspended hsus
  unfold step at hlog ⊢
  split
  · exact hnext
  rename_i hdead
  simp only [hdead] at hlog
  cases e with
  | deliver mapped =>
    unfold deliverRound at hlog ⊢
    simp only [hnext, if_false] at hlog ⊢
    have hact : ((signalTakePending (signalNextDeliverable s.task) s.task).1.actions (signalNextDeliverable s.task)) =
        s.action (.deliver mapped) := by
      rw [actions_takePending]
      rfl
    rw [deliverTo_task (.inl (hact ▸ hc)) hlog]
    exact hnext
  | fault mapped sig info =>
    unfold signalRaiseFault at hlog ⊢
    cases hx : s.exit with
    | syscall f num retval => exact hnext
    | interrupt r =>
      simp only [hx] at hlog ⊢
      split
      · exact hnext
      rename_i hblk
      rw [if_neg hblk] at hlog
      rw [deliverTo_task (.inr rfl) hlog]
      exact hnext
  | others pending procPending queued procQueued actions => exact hc

/-- **Entering one more handler.** -/
theorem Good.enter (h : Good s₀ s)
    (he : Entered s sig ka info t fpaddr sp s') (hrestart : s.log ≠ [] → s.exit.restarts ka = false)
    (hapart : Apart cpu fpaddr sp s.log) : Good s₀ s' := by
  have hp := layout_placed he.layout he.range
  have hb := hp.below
  have hmem : ∀ a, a < sp.toNat ∨ fpaddr.toNat + cpu.size + 4 ≤ a → s'.mem a = s.mem a := by
    intro a ha
    rw [he.result]
    exact writeFrame_of_not_mem (by omega) ha
  -- the new frame holds the context it interrupts, restarted if the call is
  have hnew : HasFrame s'.mem ⟨ka, fpaddr, sp, s.context⟩ { s.context with user := s.exit.returned ka } := by
    have hload : loadFrame s'.mem sp.toNat = ⟨s.task.altstack, (s.exit.context ka).regs, fpaddr, Signal.oldmask s.task⟩ := by
      rw [he.result]
      exact loadFrame_storeWords _ _ _ _ _
    refine ⟨hp, ?_, ?_, ?_, ?_, h.oldmask, ?_⟩
    · rw [hload]
      exact h.plain.returned ka
    · rw [hload]
      rfl
    · rw [hload]
    · rw [hload]
      rfl
    · intro k hk hsw
      rw [he.result]
      exact word_writeFrame_image (by omega) hk hsw
  have hold : Unwinds (HasFrame s'.mem) s₀ s.context s.log := by
    apply h.unwinds.mono
    intro en hen c hc
    apply hc.congr
    intro a h1 h2
    have hd := hapart en hen
    exact hmem a (by omega)
  refine ⟨?_, ?_, ?_, ?_, ?_, ?_⟩
  · rw [he.result]
    exact h.plain.put sig ka sp
  · rw [he.result]
    exact and_not_and _ _
  · rw [he.result]
    show t.savedBlocked &&& unblockable = 0
    rw [he.task.savedBlocked]
    exact h.saved
  · rw [he.result]
    intro hsus
    cases hsus
  · rw [he.result]
    intro hnil
    cases hnil
  · have hlog : s'.log = ⟨ka, fpaddr, sp, s.context⟩ :: s.log := by rw [he.result]
    rw [hlog]
    refine ⟨?_, ?_, hold⟩
    · have hexit : s'.context.user = (s.exit.put (enterContext sig ka sp (s.exit.context ka))).resume := by rw [he.result]; rfl
      unfold Starts
      rw [hexit, resume_put_rip, resume_put_rsp]
      exact ⟨rfl, rfl⟩
    · cases hl : s.log with
      | nil =>
        have hctx : s.context = s₀.context := by
          have hu := h.unwinds
          rw [hl] at hu
          exact hu
        have hx := h.first hl
        rw [isEmpty_nil, if_pos rfl, afterReturn_eq he.handler, ← hctx, ← hx]
        exact hnew
      | cons en rest =>
        have hr := returned_of_not_restarts (hrestart (by rw [hl]; exact cons_ne_nil _ _))
        rw [hr] at hnew
        exact hnew

theorem Good.kept (h : Good s₀ s) (hk : Kept s s')
    (hsus : s'.task.inSigsuspend → signalNextDeliverable s'.task ≠ 0) : Good s₀ s' := by
  have hctx : s'.context = s.context := by
    unfold State.context
    rw [hk.exit, hk.task.oldmask, hk.task.altstack, hk.fp]
  refine ⟨?_, ?_, ?_, hsus, ?_, ?_⟩
  · rw [hk.exit]
    exact h.plain
  · rw [hk.task.blocked]
    exact h.blocked
  · rw [hk.task.savedBlocked]
    exact h.saved
  · rw [hk.log, hk.exit]
    exact h.first
  · rw [hk.mem, hctx, hk.log]
    exact h.unwinds

theorem Good.step (h : Good s₀ s) (hok : StepOK s e) : Good s₀ (step s e) := by
  obtain hk | ⟨info, t, fpaddr, sp, he⟩ := step_cases s e
  · apply h.kept hk
    intro hsus
    rw [hk.task.inSigsuspend] at hsus
    exact step_suspended hok hsus (h.suspended hsus) hk.log
  · apply h.enter he hok.restart
    have ha := hok.apart
    rw [← context_rsp s.exit (s.action e), ← he.layout] at ha
    exact ha

/-- **Signal delivery is transparent.** If the interrupted flags and selectors are those a return restores,
no call is restarted under a second handler, no frame falls on an earlier one and a `sigsuspend` is left by
a handler, then at the end of the exit the handlers unwind to the interrupted context. -/
theorem delivery_transparent (s₀ : State cpu) (es : List Event) (hlog : s₀.log = []) (hplain : s₀.exit.Plain)
    (hblocked : s₀.task.blocked &&& unblockable = 0) (hsaved : s₀.task.savedBlocked &&& unblockable = 0)
    (hsus : s₀.task.inSigsuspend = true → signalNextDeliverable s₀.task ≠ 0) (hv : Run.Valid step StepOK s₀ es)
    (hend : signalNextDeliverable (final step s₀ es).task = 0) :
    Unwinds (Returns (final step s₀ es).mem) s₀ (final step s₀ es).machine (final step s₀ es).log := by
  have hinit : Good s₀ s₀ := by
    refine ⟨hplain, hblocked, hsaved, hsus, fun _ => rfl, ?_⟩
    rw [hlog]
    rfl
  have hgood : Good s₀ (final step s₀ es) := hv.invariant (fun s e hI hok => .step hI hok) hinit
  have hmask : (final step s₀ es).machine = (final step s₀ es).context := by
    have hno : (final step s₀ es).task.inSigsuspend = false := by
      by_contra hne
      exact hgood.suspended (by simpa using hne) hend
    unfold State.machine State.context Signal.oldmask
    rw [hno]
    rfl
  rw [hmask]
  apply hgood.unwinds.mono
  intro en _ c hc
  exact returns_of_hasFrame hc

/-- A `read` that returned -EINTR with SIGUSR1 and SIGUSR2 pending; `flags10` and `flags12` are the flags of
their handlers. -/
def twoSignals (flags10 flags12 : Word) : State legacyFpu where
  exit := .syscall ⟨0, 0, 0, 0, 0, 0, 0, 0, 0, 0, 0, 0, 0x202, 0x400010, 0x7000000⟩ 0 eintr
  task :=
    { blocked := 0, pending := sigmaskOf 10 ||| sigmaskOf 12, queued := [], savedBlocked := 0, inSigsuspend := false,
      altstack := ⟨0, 0, 0⟩, procPending := 0, procQueued := [],
      actions := fun sig =>
        if sig = 10 then ⟨0x401000, saRestorer ||| flags10, 0x402000, 0⟩
        else if sig = 12 then ⟨0x403000, saRestorer ||| flags12, 0x402000, 0⟩
        else ⟨0, 0, 0, 0⟩ }
  mem := fun _ => 0
  fp := zeroFp
  log := []
  dead := false

/-- Two handlers are stacked, and the first one restarts the call. -/
theorem delivery_transparent_two : (final step (twoSignals saRestart 0) [.deliver true, .deliver true]).log.length = 2 ∧
      Unwinds (Returns (final step (twoSignals saRestart 0) [.deliver true, .deliver true]).mem) (twoSignals saRestart 0)
        (final step (twoSignals saRestart 0) [.deliver true, .deliver true]).machine
        (final step (twoSignals saRestart 0) [.deliver true, .deliver true]).log := by
  refine ⟨by decide, ?_⟩
  apply delivery_transparent _ _ rfl
  · exact ⟨by decide, by decide, by decide⟩
  · decide
  · decide
  · intro h
    cases h
  · refine ⟨⟨fun h => absurd rfl h, ?_, ?_⟩, ⟨fun _ => ?_, ?_, ?_⟩, trivial⟩
    · intro en hen
      cases hen
    · intro h
      cases h
    · decide
    · unfold Apart
      decide
    · intro h
      exact absurd h (by decide)
  · decide

/-- **A second handler restarts the first one's entry.** SIGUSR1's handler has no SA_RESTART, so the call
still returns -EINTR when SIGUSR2's handler is entered: its frame holds the address two bytes before the
first handler. -/
theorem second_handler_moves_rip :
    (final step (twoSignals 0 saRestart) [.deliver true, .deliver true]).log.map (fun en => en.before.user.regs.rip) =
        [0x401000, 0x400010] ∧
      ¬Unwinds (Returns (final step (twoSignals 0 saRestart) [.deliver true, .deliver true]).mem) (twoSignals 0 saRestart)
        (final step (twoSignals 0 saRestart) [.deliver true, .deliver true]).machine
        (final step (twoSignals 0 saRestart) [.deliver true, .deliver true]).log := by
  have hrip : (final step (twoSignals 0 saRestart) [.deliver true, .deliver true]).log.map
      (fun en => en.before.user.regs.rip) = [0x401000, 0x400010] := by decide
  have hret : (final step (twoSignals 0 saRestart) [.deliver true, .deliver true]).log.map (fun en =>
      (signalDoSigreturn true true (en.sp + 8)
        (final step (twoSignals 0 saRestart) [.deliver true, .deliver true]).mem zeroFp).map (·.user.regs.rip)) =
      [some 0x400ffe, some 0x400010] := by decide
  refine ⟨hrip, ?_⟩
  intro h
  generalize (final step (twoSignals 0 saRestart) [.deliver true, .deliver true]).mem = mem at h hret
  generalize (final step (twoSignals 0 saRestart) [.deliver true, .deliver true]).log = log at h hrip hret
  match log, h with
  | [], _ => simp at hrip
  | [_], _ => simp at hrip
  | en :: en' :: rest, h =>
    have hen := h.2.1 mem zeroFp (fun _ _ _ => rfl)
    simp only [map_cons, List.cons.injEq] at hrip hret
    have hx := hret.1
    rw [hen] at hx
    simp only [isEmpty_cons, Bool.false_eq_true, if_false, Option.map_some, Option.some.injEq, hrip.1] at hx
    exact absurd hx (by decide)

end NeoOS.Signal
