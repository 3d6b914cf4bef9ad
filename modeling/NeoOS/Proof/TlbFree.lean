import NeoOS.Lib.Run
import NeoOS.Spec.Tlb

/-!
# Deferred frames

A deferred frame may go back to the allocator once no CPU can translate to it any more. The
shootdown that releases it has to have begun after the frame was deferred. That holds as
long as nothing is deferred for an address space while a shootdown of it is under way:
`tlb_flush_deferred` releases whatever carries the owner's tag, also what a sibling thread
has deferred after the acknowledgements came in. And it has to reach every CPU in the
address space, but looks for them by the process of their current thread.

`Inv` is the invariant. Its core is `Reached`, which says for each place in a shootdown
which CPUs are clean: they have reloaded CR3 since the shootdown began, or they were not in
the address space.
-/

namespace NeoOS.Tlb

open List
open Function (update update_apply update_of_ne update_self)

variable {s s' : State} {a b i k p m : ℕ} {pc pc' : Pc} {e : Entry} {next : Option ℕ}

/-! ## Freed pages and stale translations -/

/-- The CPUs start without anything deferred, and each thread runs on one CPU at most. -/
structure Boot (s : State) : Prop where
  idle : ∀ pc ∈ s.pcs, pc = .idle
  busy : s.busy = none
  pending : s.pending = 0
  ipi : ∀ k, s.ipi k = false
  arr : s.arr = []
  overflow : s.overflow = []
  freed : s.freed = []
  leaked : s.leaked = []
  stale : ∀ k e, s.stale k e = false
  unacked : s.unacked = []
  once : ∀ i j a, s.running i = some a → s.running j = some a → i = j
  offline : ∀ i, s.ncpu ≤ i → s.running i = none
  current : s.current = s.running

/-- A shootdown that began after the deferral and covered its owner was acknowledged by all its targets,
and no CPU has a translation. -/
structure Safe (s : State) (e : Entry) : Prop where
  after : ∃ shot ∈ s.done, e.id < shot.mark ∧ covers shot.pml4 e.owner ∧ shot.unacked = []
  clean : ∀ k, s.stale k e = false

/-- Each deferral is freed once at most, and only when that is safe. -/
structure FreeOK (s : State) : Prop where
  once : (s.freed.map Entry.id).Nodup
  safe : ∀ e ∈ s.freed, Safe s e

/-- The shootdown a thread is in, from the time it has `shootdown_busy` to its last release. -/
def Pc.shot : Pc → Option (ℕ × ℕ)
  | .started p m | .selecting p m _ _ _ | .invalidating p m _ _ | .sending p m _ | .waiting p m | .releasing p m
  | .scanning p m _ | .freeing p m _ _ | .detaching p m | .walking p m _ _ => some (p, m)
  | _ => none

/-- Nothing is deferred for an address space that is being shot down, a CPU that has the address space
in CR3 is seen to be in it, and no wait is given up. -/
def Orderly (s : State) : Event → Prop
  | .deferFree _ _ _ owner => ∀ pc ∈ s.pcs, ∀ shot ∈ pc.shot, covers shot.1 owner = false
  | .act i _ => ∀ a p m self k ts, s.on i = some a → s.pcs[a]? = some (.selecting p m self k ts) → k ≠ self →
      s.space k = p → targeted p self s k
  | .giveUp _ => s.pending ≤ 0
  | _ => True

/-! ## The entries -/

/-- What a thread has in its hands. -/
def Pc.held : Pc → List Entry
  | .deferring e => [e]
  | .freeing _ _ _ d => [d]
  | .walking _ _ overflow keep => overflow ++ keep
  | .restoring keep => keep
  | _ => []

def State.shared (s : State) : List Entry := s.arr ++ s.overflow ++ s.freed ++ s.leaked

/-- Every deferral, wherever it is. -/
def State.all (s : State) : List Entry := s.shared ++ s.pcs.flatMap Pc.held

theorem all_goto (h : s.pcs[a]? = some pc) (hp : s'.pcs = s.pcs)
    (hperm : (s'.shared ++ pc'.held).Perm (s.shared ++ pc.held)) : (s'.goto a pc').all.Perm s.all := by
  obtain ⟨rest, h1, h2⟩ := Pool.perm_flatMap_set Pc.held pc' h
  have hset : (s'.goto a pc').pcs.flatMap Pc.held = (s.pcs.set a pc').flatMap Pc.held := by
    show (s'.pcs.set a pc').flatMap Pc.held = _
    rw [hp]
  show (s'.shared ++ (s'.goto a pc').pcs.flatMap Pc.held).Perm _
  rw [hset]
  refine (h2.append_left _).trans (List.Perm.trans ?_ (h1.append_left s.shared).symm)
  rw [← append_assoc, ← append_assoc]
  exact hperm.append_right rest

/-- No step of a thread makes or loses an entry. -/
theorem all_act (i a : ℕ) (ok : Bool) (s : State) : (act i a ok s).all.Perm s.all := by
  have hswap := @Pool.perm_swapRemove Entry
  unfold act
  repeat' split
  -- the entry goes from the hands of the thread to a list, or back
  all_goals first
    | exact .refl _
    | refine all_goto ‹_› rfl ?_
      simp only [flushCpu, State.shared, Pc.held]
      grind

/-! ## The invariant -/

/-- CPU `k` has no translation to what a shootdown of `p` with this mark is to release. -/
def Clean (s : State) (p m k : ℕ) : Prop := ∀ e : Entry, e.id < m → covers p e.owner → s.stale k e = false

/-- A shootdown of `p` is acknowledged. -/
structure Over (s : State) (p m : ℕ) : Prop where
  clean : ∀ k < s.ncpu, Clean s p m k
  done : ⟨p, m, []⟩ ∈ s.done

/-- What a thread has reached. -/
def Reached (s : State) (a : ℕ) : Pc → Prop
  | .started _ _ => s.unacked = []
  | .selecting p m self i ts =>
    s.unacked = [] ∧ ts.Nodup ∧ (∀ k ∈ ts, k < i) ∧ (∀ k < i, k = self ∨ k ∈ ts ∨ Clean s p m k) ∧
      (s.running self = some a ∨ Clean s p m self)
  | .invalidating p m self ts =>
    s.unacked = ts ∧ ts.Nodup ∧ (∀ k, s.ipi k = false) ∧ (∀ k < s.ncpu, k = self ∨ k ∈ ts ∨ Clean s p m k) ∧
      (s.running self = some a ∨ Clean s p m self)
  | .sending p m ts =>
    ts.Nodup ∧ (∀ k ∈ ts, k ∈ s.unacked ∧ s.ipi k = false) ∧ ∀ k < s.ncpu, k ∈ s.unacked ∨ Clean s p m k
  | .waiting p m => ∀ k < s.ncpu, k ∈ s.unacked ∨ Clean s p m k
  | .releasing p m => s.unacked = [] ∧ Over s p m
  | .scanning p m _ | .detaching p m | .walking p m _ _ => Over s p m
  | .freeing p m _ d => covers p d.owner = true ∧ Over s p m
  | _ => True

/-- The places at which a thread has `shootdown_busy`. -/
def Pc.holds : Pc → Bool
  | .started .. | .selecting .. | .invalidating .. | .sending .. | .waiting .. | .releasing .. => true
  | _ => false

/-- The CPU runs the thread, or is about to. -/
def State.Has (s : State) (i a : ℕ) : Prop := s.running i = some a ∨ s.current i = some a

structure Inv (s : State) : Prop where
  pending : s.pending = s.unacked.length
  ipi : ∀ k, s.ipi k → k ∈ s.unacked
  busy : s.busy = none → s.unacked = []
  holder : ∀ (a : ℕ) (pc : Pc), s.pcs[a]? = some pc → pc.holds → s.busy = some a
  reached : ∀ (a : ℕ) (pc : Pc), s.pcs[a]? = some pc → Reached s a pc
  stale : ∀ k e, s.stale k e → k < s.ncpu ∧ e.id < s.nextId ∧ (e.owner = 0 ∨ s.space k = e.owner)
  mark : ∀ (a : ℕ) (pc : Pc), s.pcs[a]? = some pc → ∀ p m, pc.shot = some (p, m) →
    m ≤ s.nextId ∧ ∀ e ∈ s.all, covers p e.owner → e.id < m
  ids : ∀ e ∈ s.all, e.id < s.nextId
  nodup : (s.all.map Entry.id).Nodup
  safe : ∀ e ∈ s.freed, Safe s e
  once : ∀ i j a, s.Has i a → s.Has j a → i = j
  offline : ∀ i, s.ncpu ≤ i → s.running i = none ∧ s.current i = none

theorem Boot.inv (h : Boot s) : Inv s := by
  have hpc : ∀ (a : ℕ) (pc : Pc), s.pcs[a]? = some pc → pc = .idle := fun a pc hpc => h.idle pc (mem_of_getElem? hpc)
  have hall : s.all = [] := by
    unfold State.all State.shared
    rw [h.arr, h.overflow, h.freed, h.leaked, flatMap_eq_nil_iff.2]
    · rfl
    · intro pc hm
      rw [h.idle pc hm]
      rfl
  obtain ⟨-, hbusy, hpending, hipi, -, -, hfreed, -, hstale, hunacked, honce, hoffline, hcurrent⟩ := h
  constructor <;> grind [Pc.holds, Pc.shot, Reached, State.Has]

theorem Clean.mono (h : Clean s p m k) (hs : ∀ e, s'.stale k e → s.stale k e) : Clean s' p m k := by
  intro e h1 h2
  have h3 := h e h1 h2
  rw [← Bool.not_eq_true] at h3 ⊢
  exact fun hk => h3 (hs e hk)

/-- What a thread has reached stays, if what it relies on does. -/
theorem Reached.mono (h : Reached s b pc) (hncpu : s'.ncpu = s.ncpu)
    (hclean : ∀ p m k, pc.shot = some (p, m) → Clean s p m k → Clean s' p m k)
    (hrun : ∀ k, s.running k = some b → s'.running k = some b ∨ ∀ p m, Clean s' p m k)
    (hdone : ∀ x ∈ s.done, x ∈ s'.done)
    (hflight : pc.holds → s'.unacked = s.unacked ∧ s'.ipi = s.ipi) : Reached s' b pc := by
  have hover : ∀ p m, pc.shot = some (p, m) → Over s p m → Over s' p m :=
    fun p m hs ho => ⟨fun k hk => hclean p m k hs (ho.clean k (hncpu ▸ hk)), hdone _ ho.done⟩
  replace hflight : pc.holds = true → s'.unacked = s.unacked ∧ ∀ k, s'.ipi k = s.ipi k :=
    fun hh => (hflight hh).imp id congrFun
  cases pc <;> simp only [Reached, Pc.shot, Pc.holds, Option.some.injEq, Prod.mk.injEq] at * <;> grind

theorem Safe.mono (h : Safe s e) (hs : ∀ k, s'.stale k e → s.stale k e) (hdone : ∀ x ∈ s.done, x ∈ s'.done) : Safe s' e := by
  obtain ⟨⟨shot, h1, h2⟩, h3⟩ := h
  exact ⟨⟨shot, hdone _ h1, h2⟩, by grind⟩

/-- What the step of a thread leaves alone: the CPUs, and everything but the entries and its place. -/
structure Frame (s s' : State) : Prop where
  pcs : s'.pcs = s.pcs
  ncpu : s'.ncpu = s.ncpu
  space : s'.space = s.space
  running : s'.running = s.running
  current : s'.current = s.current
  nextId : s'.nextId = s.nextId
  stale : ∀ k e, s'.stale k e → s.stale k e
  done : ∀ x ∈ s.done, x ∈ s'.done

theorem goto_cases (hpcs : s'.pcs = s.pcs) (hb : (s'.goto a pc').pcs[b]? = some pc) :
    b = a ∧ pc = pc' ∨ b ≠ a ∧ s.pcs[b]? = some pc := by
  have hb' : (s'.pcs.set a pc')[b]? = some pc := hb
  rw [hpcs, getElem?_set] at hb'
  split at hb'
  · rename_i hab
    split at hb'
    · exact .inl ⟨hab.symm, (Option.some.inj hb').symm⟩
    · cases hb'
  · rename_i hab
    exact .inr ⟨fun h => hab h.symm, hb'⟩

theorem clean_flushCpu (i : ℕ) (s : State) (p m : ℕ) : Clean (flushCpu i s) p m i := by
  intro e _ _
  simp [flushCpu]

theorem stale_flushCpu (h : (flushCpu i s).stale k e) : s.stale k e := by
  simp only [flushCpu, Bool.and_eq_true] at h
  exact h.2

theorem mem_all_of_held (hpc : s.pcs[a]? = some pc) (he : e ∈ pc.held) : e ∈ s.all :=
  mem_append_right _ (mem_flatMap.2 ⟨pc, mem_of_getElem? hpc, he⟩)

theorem Clean.markStale (h : Clean s p m k) (hm : m ≤ e.id) : Clean (markStale e s) p m k := by
  intro x h1 h2
  have hne : x ≠ e := by
    rintro rfl
    omega
  simp [Tlb.markStale, h x h1 h2, hne]

/-- The state with a new entry. -/
def enter (e : Entry) (pcs : List Pc) (arr : List Entry) (s : State) : State :=
  { markStale e s with nextId := s.nextId + 1, pcs := pcs, arr := arr }

/-- A new entry, which no shootdown under way covers. -/
theorem Inv.enter (pcs : List Pc) (arr : List Entry) (h : Inv s)
    (hpcs : ∀ (b : ℕ) (pcb : Pc), pcs[b]? = some pcb → s.pcs[b]? = some pcb ∨ pcb = .deferring e)
    (hnew : ∀ pc ∈ s.pcs, ∀ shot ∈ pc.shot, covers shot.1 e.owner = false) (hid : e.id = s.nextId)
    (hall : (enter e pcs arr s).all.Perm (e :: s.all)) : Inv (enter e pcs arr s) := by
  have hold : ∀ (b : ℕ) (pcb : Pc), pcs[b]? = some pcb → pcb.holds ∨ pcb.shot.isSome → s.pcs[b]? = some pcb := by
    grind [Pc.holds, Pc.shot]
  have hmem : ∀ x, x ∈ (Tlb.enter e pcs arr s).all ↔ x = e ∨ x ∈ s.all := fun x => by rw [hall.mem_iff, mem_cons]
  have hids := h.ids
  refine ⟨h.pending, h.ipi, h.busy, ?_, ?_, ?_, ?_, ?_, ?_, ?_, h.once, h.offline⟩
  · exact fun b pcb hb hh => h.holder b pcb (hold b pcb hb (.inl hh)) hh
  · intro b pcb hb
    obtain hb | rfl := hpcs b pcb hb
    · exact (h.reached b pcb hb).mono rfl (fun p m k hsh hc => hc.markStale (hid ▸ (h.mark b pcb hb p m hsh).1))
        (fun k hk => .inl hk) (fun _ => id) fun _ => ⟨rfl, rfl⟩
    · trivial
  · intro k x hk
    have hx := h.stale k x
    simp only [Tlb.enter, Tlb.markStale] at hk ⊢
    grind
  · intro b pcb hb p m hsh
    have hb' := hold b pcb hb (.inr (by rw [hsh]; rfl))
    obtain ⟨h1, h2⟩ := h.mark b pcb hb' p m hsh
    have hno := hnew pcb (mem_of_getElem? hb') (p, m) hsh
    refine ⟨Nat.le_succ_of_le h1, fun x hx hc => ?_⟩
    obtain rfl | hx := (hmem x).1 hx
    · cases hno.symm.trans hc
    · exact h2 x hx hc
  · intro x hx
    show x.id < s.nextId + 1
    grind
  · rw [(hall.map Entry.id).nodup_iff, map_cons, nodup_cons]
    exact ⟨by grind, h.nodup⟩
  · intro x hx
    obtain ⟨⟨shot, h1, h2⟩, h3⟩ := h.safe x hx
    have := hids x (mem_append_left _ (mem_append_left _ (mem_append_right _ hx)))
    refine ⟨⟨shot, h1, h2⟩, fun k => ?_⟩
    simp only [Tlb.enter, Tlb.markStale]
    grind

section

variable (h : Inv s)
include h

theorem Inv.freeOK : FreeOK s := by
  refine ⟨?_, h.safe⟩
  have hsub : s.freed.Sublist s.all :=
    (((sublist_append_right _ _).trans (sublist_append_left _ _)).trans (sublist_append_left _ _))
  exact (hsub.map Entry.id).nodup h.nodup

/-! ## Steps of a thread -/

/-- **A step of a thread keeps the invariant**, if the new values do. -/
theorem Inv.goto (hpc : s.pcs[a]? = some pc) (hf : Frame s s') (hperm : (s'.goto a pc').all.Perm s.all)
    (hpending : s'.pending = s'.unacked.length) (hipi : ∀ k, s'.ipi k → k ∈ s'.unacked)
    (hfree : s'.busy = none → s'.unacked = []) (hholds : pc'.holds → s'.busy = some a)
    (hothers : s'.busy = s.busy ∨ s.busy = none ∨ s.busy = some a)
    (hflight : s'.unacked = s.unacked ∧ s'.ipi = s.ipi ∨ s.busy = some a)
    (hreached : Reached (s'.goto a pc') a pc')
    (hmark : pc'.shot = pc.shot ∨ pc'.shot = none ∨ ∃ p, pc'.shot = some (p, s.nextId))
    (hsafe : ∀ e ∈ s'.freed, e ∈ s.freed ∨ Safe s' e) : Inv (s'.goto a pc') := by
  obtain ⟨hpcs, hncpu, hspace, hrunning, hcurrent, hnext, hstale, hdone⟩ := hf
  have hmem : ∀ x, x ∈ (s'.goto a pc').all → x ∈ s.all := fun x hx => hperm.mem_iff.1 hx
  have hids : ∀ x ∈ (s'.goto a pc').all, x.id < s.nextId := fun x hx => h.ids x (hmem x hx)
  refine ⟨hpending, hipi, hfree, ?_, ?_, ?_, ?_, hnext ▸ hids, (hperm.map Entry.id).nodup_iff.2 h.nodup, ?_, ?_, ?_⟩
  · intro b pcb hb hh
    obtain ⟨rfl, rfl⟩ | ⟨hne, hb⟩ := goto_cases hpcs hb
    · exact hholds hh
    · have hbusy := h.holder b pcb hb hh
      change s'.busy = some b
      grind
  · intro b pcb hb
    obtain ⟨rfl, rfl⟩ | ⟨hne, hb⟩ := goto_cases hpcs hb
    · exact hreached
    · refine (h.reached b pcb hb).mono hncpu (fun p m k _ hc => hc.mono (hstale k)) ?_ hdone fun hh => ?_
      · exact fun k hk => .inl ((congrFun hrunning k).trans hk)
      · have hbusy := h.holder b pcb hb hh
        exact hflight.resolve_right (by grind)
  · intro k e hk
    have hx := h.stale k e (hstale k e hk)
    change k < s'.ncpu ∧ e.id < s'.nextId ∧ (e.owner = 0 ∨ s'.space k = e.owner)
    rwa [hncpu, hnext, hspace]
  · intro b pcb hb p m hs
    change m ≤ s'.nextId ∧ _
    rw [hnext]
    obtain ⟨rfl, rfl⟩ | ⟨-, hb⟩ := goto_cases hpcs hb
    · have hx := h.mark b pc hpc
      grind
    · obtain ⟨h1, h2⟩ := h.mark b pcb hb p m hs
      exact ⟨h1, fun x hx => h2 x (hmem x hx)⟩
  · intro x hx
    exact (hsafe x hx).elim (fun hx => (h.safe x hx).mono (fun k => hstale k x) hdone) fun hx =>
      hx.mono (fun _ => id) fun _ => id
  · change ∀ i j a, s'.running i = some a ∨ s'.current i = some a → s'.running j = some a ∨ s'.current j = some a → i = j
    rw [hrunning, hcurrent]
    exact h.once
  · change ∀ i, s'.ncpu ≤ i → s'.running i = none ∧ s'.current i = none
    rw [hrunning, hcurrent, hncpu]
    exact h.offline

/-- A step that moves entries, or only goes on. -/
theorem Inv.move (hpc : s.pcs[a]? = some pc) {arr overflow freed leaked : List Entry}
    (hperm : ({ s with arr := arr, overflow := overflow, freed := freed, leaked := leaked }.goto a pc').all.Perm s.all)
    (hholds : pc'.holds → pc.holds) (hreached : Reached s a pc') (hmark : pc'.shot = pc.shot ∨ pc'.shot = none)
    (hsafe : ∀ e ∈ freed, e ∈ s.freed ∨ Safe s e) :
    Inv ({ s with arr := arr, overflow := overflow, freed := freed, leaked := leaked }.goto a pc') := by
  refine h.goto hpc ⟨rfl, rfl, rfl, rfl, rfl, rfl, fun _ _ => id, fun _ => id⟩ hperm h.pending h.ipi h.busy
    (fun hh => h.holder a pc hpc (hholds hh)) (.inl rfl) (.inl ⟨rfl, rfl⟩) ?_ (hmark.imp id .inl) fun e he => ?_
  · exact hreached.mono rfl (fun _ _ _ _ => id) (fun _ => .inl) (fun _ => id) fun _ => ⟨rfl, rfl⟩
  · exact (hsafe e he).imp id fun hx => hx.mono (fun _ => id) fun _ => id

theorem Inv.advance (hpc : s.pcs[a]? = some pc) (hperm : (s.goto a pc').all.Perm s.all)
    (hholds : pc'.holds → pc.holds) (hreached : Reached s a pc')
    (hmark : pc'.shot = pc.shot ∨ pc'.shot = none) : Inv (s.goto a pc') :=
  h.move hpc hperm hholds hreached hmark fun _ => .inl

/-- An entry that an acknowledged shootdown covers is safe to free. -/
theorem Inv.safe_of_over (ho : Over s p m) (hid : e.id < m) (hc : covers p e.owner) : Safe s e := by
  refine ⟨⟨⟨p, m, []⟩, ho.done, hid, hc, rfl⟩, fun k => ?_⟩
  rw [← Bool.not_eq_true]
  intro hk
  exact Bool.false_ne_true ((ho.clean k (h.stale k e hk).1 e hid hc).symm.trans hk)

/-- A CPU that is not a target is not in the address space. -/
theorem Inv.clean_of_not_targeted (hne : k ≠ i) (hread : k ≠ i → s.space k = p → targeted p i s k)
    (ht : targeted p i s k = false) : Clean s p m k := by
  intro e _ hc
  have hs := h.stale k e
  unfold targeted at ht hread
  unfold covers at hc
  grind

theorem Inv.leaveWait (hpc : s.pcs[a]? = some (.waiting p m)) (hzero : s.pending ≤ 0)
    (n : ℤ) (hn : n = 0 ∨ n = s.pending) : Inv (leaveWait a p m { s with pending := n }) := by
  have hnil : s.unacked = [] := by
    have := h.pending
    exact length_eq_zero_iff.1 (by omega)
  have hpend : s.pending = 0 := by
    rw [h.pending, hnil]
    rfl
  have hr : Reached s a (.waiting p m) := h.reached a _ hpc
  refine h.goto hpc ⟨rfl, rfl, rfl, rfl, rfl, rfl, fun _ _ => id, fun x hx => mem_cons_of_mem _ hx⟩
    (all_goto hpc rfl (.refl _)) ?_ h.ipi h.busy (fun _ => h.holder a _ hpc rfl) (.inl rfl)
    (.inl ⟨rfl, rfl⟩) ⟨hnil, ?_, ?_⟩ (.inl rfl) fun x hx => .inl hx
  · show n = (s.unacked.length : ℤ)
    rw [← h.pending]
    obtain hn | hn := hn
    · exact hn.trans hpend.symm
    · exact hn
  · intro k hk
    refine (hr k hk).resolve_left ?_
    rw [hnil]
    exact not_mem_nil
  · show (⟨p, m, []⟩ : Shot) ∈ ⟨p, m, s.unacked⟩ :: s.done
    rw [hnil]
    exact mem_cons_self

section

variable {self : ℕ} {ts : List ℕ}

/-- `shootdown_busy` is free and is taken. -/
theorem Inv.acquire (hpc : s.pcs[a]? = some (.spinning p)) (hnone : s.busy = none) :
    Inv ({ s with busy := some a }.goto a (.started p s.nextId)) :=
  h.goto hpc ⟨rfl, rfl, rfl, rfl, rfl, rfl, fun _ _ => id, fun _ => id⟩ (all_goto hpc rfl (.refl _)) h.pending h.ipi
    nofun (fun _ => rfl) (.inr (.inl hnone)) (.inl ⟨rfl, rfl⟩) (h.busy hnone) (.inr (.inr ⟨p, rfl⟩)) fun _ => .inl

/-- The loop reads the current thread of CPU `k`. -/
theorem Inv.select (hpc : s.pcs[a]? = some (.selecting p m self k ts))
    (hread : k ≠ self → s.space k = p → targeted p self s k) :
    Inv (s.goto a (.selecting p m self (k + 1) (if targeted p self s k then ts ++ [k] else ts))) := by
  obtain ⟨h1, h2, h3, h4, h5⟩ := (h.reached a _ hpc : Reached s a (.selecting p m self k ts))
  refine h.advance hpc (all_goto hpc rfl (.refl _)) (fun _ => rfl) ⟨h1, ?_, ?_, ?_, h5⟩ (.inl rfl)
  · grind
  · grind
  · intro j hj
    -- the CPU that is read now may not be a target
    have hnot : k ≠ self → targeted p self s k = false → Clean s p m k := fun hne => h.clean_of_not_targeted hne hread
    grind

/-- The loop is over: `shootdown_pending` is stored. -/
theorem Inv.storePending (hpc : s.pcs[a]? = some (.selecting p m self k ts)) (hk : s.ncpu ≤ k) :
    Inv ({ s with pending := ts.length, unacked := ts }.goto a (.invalidating p m self ts)) := by
  obtain ⟨h1, h2, h3, h4, h5⟩ := (h.reached a _ hpc : Reached s a (.selecting p m self k ts))
  have hbusy : s.busy = some a := h.holder a _ hpc rfl
  have hipi : ∀ j, s.ipi j = false := by
    have hx := h.ipi
    grind
  refine h.goto hpc ⟨rfl, rfl, rfl, rfl, rfl, rfl, fun _ _ => id, fun _ => id⟩ (all_goto hpc rfl (.refl _)) rfl ?_ ?_
    (fun _ => hbusy) (.inl rfl) (.inr hbusy) ⟨rfl, h2, hipi, fun j hj => h4 j (Nat.lt_of_lt_of_le hj hk), h5⟩
    (.inl rfl) fun _ => .inl
  · exact fun j hj => absurd ((hipi j).symm.trans hj) Bool.false_ne_true
  · intro hb
    cases hbusy.symm.trans hb

theorem Inv.invalidate (hrun : s.running i = some a) (hpc : s.pcs[a]? = some (.invalidating p m self ts)) :
    Inv ((flushCpu i s).goto a (.sending p m ts)) := by
  obtain ⟨h1, h2, h3, h4, h5⟩ := (h.reached a _ hpc : Reached s a (.invalidating p m self ts))
  have hclean : ∀ k, Clean s p m k → Clean (flushCpu i s) p m k := fun k hc => hc.mono fun _ => stale_flushCpu
  refine h.goto hpc ⟨rfl, rfl, rfl, rfl, rfl, rfl, fun _ _ => stale_flushCpu, fun _ => id⟩ (all_goto hpc rfl (.refl _))
    h.pending h.ipi h.busy (fun _ => h.holder a _ hpc rfl) (.inl rfl) (.inl ⟨rfl, rfl⟩)
    ⟨h2, fun k hk => ⟨h1 ▸ hk, h3 k⟩, ?_⟩ (.inl rfl) fun _ => .inl
  intro k hk
  obtain rfl | hm | hc := h4 k hk
  · -- this CPU, or one that has switched since
    right
    obtain hr | hc := h5
    · rw [h.once k i a (.inl hr) (.inl hrun)]
      exact clean_flushCpu i s p m
    · exact hclean k hc
  · exact .inl (h1 ▸ hm)
  · exact .inr (hclean k hc)

/-- The IPI to the next target. -/
theorem Inv.send (hpc : s.pcs[a]? = some (.sending p m (k :: ts))) :
    Inv ({ s with ipi := update s.ipi k true }.goto a (.sending p m ts)) := by
  obtain ⟨h1, h2, h3⟩ := (h.reached a _ hpc : Reached s a (.sending p m (k :: ts)))
  have hbusy : s.busy = some a := h.holder a _ hpc rfl
  have hipi := h.ipi
  refine h.goto hpc ⟨rfl, rfl, rfl, rfl, rfl, rfl, fun _ _ => id, fun _ => id⟩ (all_goto hpc rfl (.refl _)) h.pending ?_
    h.busy (fun _ => hbusy) (.inl rfl) (.inr hbusy) ⟨(nodup_cons.1 h1).2, ?_, h3⟩ (.inl rfl) fun _ => .inl
  · grind [update_apply]
  · intro j hj
    simp only [State.goto]
    grind [update_apply]

theorem Inv.release (hpc : s.pcs[a]? = some (.releasing p m)) : Inv ({ s with busy := none }.goto a (.scanning p m 0)) := by
  obtain ⟨h1, h2⟩ := (h.reached a _ hpc : Reached s a (.releasing p m))
  exact h.goto hpc ⟨rfl, rfl, rfl, rfl, rfl, rfl, fun _ _ => id, fun _ => id⟩
    (all_goto hpc rfl (.refl _)) h.pending h.ipi
    (fun _ => h1) nofun (.inr (.inr (h.holder a _ hpc rfl))) (.inl ⟨rfl, rfl⟩) ⟨h2.clean, h2.done⟩ (.inl rfl) fun _ => .inl

end

/-- What a thread takes out under a covering shootdown that is over may be freed. -/
theorem Inv.freed_safe (hpc : s.pcs[a]? = some pc) (hs : pc.shot = some (p, m)) (ho : Over s p m) (he : e ∈ pc.held)
    (hc : covers p e.owner) : ∀ x ∈ e :: s.freed, x ∈ s.freed ∨ Safe s x := by
  intro x hx
  obtain rfl | hx := mem_cons.1 hx
  · exact .inr (h.safe_of_over ho ((h.mark a pc hpc p m hs).2 x (mem_all_of_held hpc he) hc) hc)
  · exact .inl hx

/-- **Every step of a thread keeps the invariant.** -/
theorem Inv.act (hrun : s.running i = some a) (ok : Bool) (hread : ∀ p m self k ts,
    s.pcs[a]? = some (.selecting p m self k ts) → k ≠ self → s.space k = p → targeted p self s k) : Inv (act i a ok s) := by
  have hperm := all_act i a ok s
  revert hperm
  unfold Tlb.act
  split
  · rename_i e hpc
    split <;> exact fun hperm => h.move hpc hperm id trivial (.inl rfl) fun _ => .inl
  · rename_i p hpc
    split
    · exact fun _ => h
    · rename_i hbusy
      exact fun _ => h.acquire hpc (by simpa using hbusy)
  · rename_i p m hpc
    have hr : s.unacked = [] := h.reached a _ hpc
    exact fun hperm => h.advance hpc hperm (fun _ => rfl) ⟨hr, nodup_nil, nofun, nofun, .inl hrun⟩ (.inl rfl)
  · rename_i p m self k ts hpc
    split
    · exact fun _ => h.select hpc (hread p m self k ts hpc)
    · rename_i hk
      exact fun _ => h.storePending hpc (Nat.le_of_not_lt hk)
  · rename_i p m self ts hpc
    exact fun _ => h.invalidate hrun hpc
  · rename_i p m hpc
    obtain ⟨-, -, h3⟩ := (h.reached a _ hpc : Reached s a (.sending p m []))
    exact fun hperm => h.advance hpc hperm (fun _ => rfl) h3 (.inl rfl)
  · rename_i p m k ts hpc
    exact fun _ => h.send hpc
  · rename_i p m hpc
    split
    · exact fun _ => h
    · rename_i hzero
      exact fun _ => h.leaveWait hpc (Int.not_lt.1 hzero) s.pending (.inr rfl)
  · rename_i p m hpc
    exact fun _ => h.release hpc
  · rename_i p m k hpc
    have ho : Over s p m := h.reached a _ hpc
    split
    · exact fun hperm => h.advance hpc hperm nofun ho (.inl rfl)
    · split
      · rename_i hc
        exact fun hperm => h.move hpc hperm nofun ⟨hc, ho⟩ (.inl rfl) fun _ => .inl
      · exact fun hperm => h.advance hpc hperm nofun ho (.inl rfl)
  · rename_i p m k d hpc
    obtain ⟨hc, ho⟩ := (h.reached a _ hpc : Reached s a (.freeing p m k d))
    exact fun hperm => h.move hpc hperm nofun ho (.inl rfl) (h.freed_safe hpc rfl ho mem_cons_self hc)
  · rename_i p m hpc
    have ho : Over s p m := h.reached a _ hpc
    exact fun hperm => h.move hpc hperm nofun ho (.inl rfl) fun _ => .inl
  · rename_i hpc
    split <;> exact fun hperm => h.advance hpc hperm nofun trivial (.inr rfl)
  · rename_i p m e overflow keep hpc
    have ho : Over s p m := h.reached a _ hpc
    split
    · rename_i hc
      exact fun hperm => h.move hpc hperm nofun ho (.inl rfl) (h.freed_safe hpc rfl ho mem_cons_self hc)
    · exact fun hperm => h.advance hpc hperm nofun ho (.inl rfl)
  · rename_i keep hpc
    exact fun hperm => h.move hpc hperm nofun trivial (.inl rfl) fun _ => .inl
  · exact fun _ => h

/-! ## Calls, acknowledgements and context switches -/

theorem Inv.deferFree {phys order owner : ℕ} (hpc : s.pcs[a]? = some .idle)
    (hnew : ∀ pc ∈ s.pcs, ∀ shot ∈ pc.shot, covers shot.1 owner = false) : Inv (deferFree a phys order owner s) := by
  unfold Tlb.deferFree
  simp only
  split
  · refine .enter (e := ⟨s.nextId, phys, order, owner⟩) s.pcs (s.arr ++ [_]) h (fun b pcb hb => .inl hb) hnew rfl ?_
    simp only [State.all, State.shared, Tlb.enter, Tlb.markStale]
    grind
  · refine .enter (e := ⟨s.nextId, phys, order, owner⟩) (s.pcs.set a (.deferring _)) s.arr h (fun b pcb hb => ?_) hnew rfl ?_
    · have hb' : (s.goto a (.deferring ⟨s.nextId, phys, order, owner⟩)).pcs[b]? = some pcb := hb
      obtain ⟨-, rfl⟩ | ⟨-, hb⟩ := goto_cases rfl hb'
      · exact .inr rfl
      · exact .inl hb
    · obtain ⟨rest, h1, h2⟩ := Pool.perm_flatMap_set Pc.held (.deferring ⟨s.nextId, phys, order, owner⟩) hpc
      have h1' : (s.pcs.flatMap Pc.held).Perm rest := h1
      refine (h2.append_left _).trans ?_
      exact perm_middle.trans ((h1'.symm.append_left _).cons _)

theorem Inv.ack (hi : s.ipi i) : Inv (ipiTlbHandler i s) := by
  have hmem := h.ipi i hi
  have hstale : ∀ k e, (ipiTlbHandler i s).stale k e → s.stale k e := fun k e hk => stale_flushCpu hk
  have hclean : ∀ p m k, Clean s p m k → Clean (ipiTlbHandler i s) p m k := fun p m k hc => hc.mono (hstale k)
  have hself : ∀ p m, Clean (ipiTlbHandler i s) p m i := fun p m => clean_flushCpu i _ p m
  have hover : ∀ p m, Over s p m → Over (ipiTlbHandler i s) p m :=
    fun p m ho => ⟨fun k hk => hclean p m k (ho.clean k hk), ho.done⟩
  refine ⟨?_, ?_, ?_, h.holder, ?_, fun k e hk => h.stale k e (hstale k e hk), h.mark, h.ids, h.nodup,
    fun e he => (h.safe e he).mono (fun k => hstale k e) fun _ => id, h.once, h.offline⟩
  · have hlen := length_erase_of_mem hmem
    have hpos := length_pos_of_mem hmem
    have hp := h.pending
    show s.pending - 1 = ((s.unacked.erase i).length : ℤ)
    omega
  · intro k hk
    have hk' := h.ipi k
    simp only [ipiTlbHandler, flushCpu] at hk ⊢
    grind [update_apply]
  · intro hb
    cases h.busy hb ▸ hmem
  · intro b pcb hb
    have hr := h.reached b pcb hb
    -- every place has an acknowledgement outstanding, or is past the wait
    have hipi : (ipiTlbHandler i s).ipi = update s.ipi i false := rfl
    have hun : (ipiTlbHandler i s).unacked = s.unacked.erase i := rfl
    have hn : (ipiTlbHandler i s).ncpu = s.ncpu := rfl
    generalize ipiTlbHandler i s = s' at *
    cases pcb <;> simp only [Reached, hipi, hun, hn] at hr ⊢ <;> grind [update_apply]

/-- Neither `current` nor `pml4_phys` says what a CPU can translate. -/
theorem Inv.relabel {current : ℕ → Option ℕ} (pml4 : ℕ → ℕ) (honce : ∀ i j a, (s.running i = some a ∨ current i = some a) →
    (s.running j = some a ∨ current j = some a) → i = j) (hoff : ∀ i, s.ncpu ≤ i → current i = none) :
    Inv { s with current := current, pml4 := pml4 } := by
  refine { h with reached := ?_, safe := ?_, once := honce, offline := fun j hj => ⟨(h.offline j hj).1, hoff j hj⟩ }
  · exact fun b pcb hb => (h.reached b pcb hb).mono rfl (fun _ _ _ _ => id) (fun _ => .inl) (fun _ => id) fun _ => ⟨rfl, rfl⟩
  · exact fun e he => (h.safe e he).mono (fun _ => id) fun _ => id

theorem Inv.schedule (hi : i < s.ncpu) (hfree : free s i next) :
    Inv { s with current := update s.current i next } := by
  have honce := h.once
  have hoffline := h.offline
  refine h.relabel s.pml4 ?_ fun j hj => ?_
  · -- the thread ran nowhere else
    have hnew : ∀ j b, j ≠ i → next = some b → ¬ s.Has j b := by
      rintro j b hj rfl hr
      have hlt : j < s.ncpu := by
        by_contra hge
        have hoff := hoffline j (Nat.le_of_not_lt hge)
        simp [State.Has, hoff] at hr
      simp only [free, Option.all_some, all_eq_true, mem_range, Bool.or_eq_true, Bool.and_eq_true, beq_iff_eq, bne_iff_ne,
        ne_eq] at hfree
      exact (hfree j hlt).elim hj fun h1 => hr.elim h1.1 h1.2
    intro j j' b hj hj'
    simp only [State.Has, update_apply] at *
    grind
  · rw [update_of_ne (Nat.ne_of_gt (Nat.lt_of_lt_of_le hi hj))]
    exact (hoffline j hj).2

/-- CPU `i` writes CR3 and goes on with `next`, which it has. -/
theorem Inv.reload {p : ℕ} (hnext : next = s.running i ∨ next = s.current i) :
    Inv (flushCpu i { s with running := update s.running i next, space := update s.space i p }) := by
  have hstale : ∀ k e, (flushCpu i { s with running := update s.running i next, space := update s.space i p }).stale k e →
      s.stale k e ∧ k ≠ i := by
    intro k e hk
    simp only [flushCpu, Bool.and_eq_true, decide_eq_true_eq] at hk
    exact ⟨hk.2, hk.1⟩
  refine { h with reached := ?_, stale := ?_, safe := ?_, once := ?_, offline := ?_ }
  · intro b pcb hb
    refine (h.reached b pcb hb).mono rfl (fun p m k _ hc => hc.mono fun e hk => (hstale k e hk).1) ?_ (fun _ => id)
      fun _ => ⟨rfl, rfl⟩
    intro k hk
    by_cases hki : k = i
    · exact .inr fun p m => hki ▸ clean_flushCpu i _ p m
    · exact .inl ((update_of_ne hki _ _).trans hk)
  · intro k e hk
    obtain ⟨h1, h2⟩ := hstale k e hk
    obtain ⟨h3, h4, h5⟩ := h.stale k e h1
    refine ⟨h3, h4, h5.imp id fun h5 => ?_⟩
    show update s.space i p k = e.owner
    rw [update_of_ne h2]
    exact h5
  · exact fun e he => (h.safe e he).mono (fun k hk => (hstale k e hk).1) fun _ => id
  · have honce := h.once
    intro j j' b hj hj'
    simp only [State.Has, flushCpu, update_apply] at *
    grind
  · have hoffline := h.offline
    intro j hj
    simp only [flushCpu, update_apply] at *
    grind

omit h in
theorem on_running (hon : s.on i = some a) : s.running i = some a := by
  unfold State.on at hon
  split at hon
  · exact hon
  · cases hon

/-- **One event keeps the invariant.** -/
theorem Inv.step (ev : Event) (hok : Orderly s ev) : Inv (step s ev) := by
  cases ev with
  | deferFree i phys order owner =>
    simp only [Tlb.step]
    split
    · split
      · rename_i hpc
        exact h.deferFree hpc hok
      · exact h
    · exact h
  | shootdown i p =>
    simp only [Tlb.step]
    split
    · split
      · rename_i hpc
        exact h.advance hpc (all_goto hpc rfl (.refl _)) (fun hh => nomatch hh) trivial (.inr rfl)
      · exact h
    · exact h
  | act i ok =>
    simp only [Tlb.step]
    split
    · rename_i a hon
      exact h.act (on_running hon) ok fun p m self k ts => hok a p m self k ts hon
    · exact h
  | giveUp i =>
    simp only [Tlb.step, giveUp]
    split
    · split
      · rename_i hpc
        exact h.leaveWait hpc hok 0 (.inl rfl)
      · exact h
    · exact h
  | ack i =>
    simp only [Tlb.step]
    split
    · rename_i hi
      exact h.ack hi.1
    · exact h
  | schedule i next =>
    simp only [Tlb.step]
    split
    · rename_i hi
      exact h.schedule hi.1 hi.2.2
    · exact h
  | loadCr3 i => exact h.reload (.inr rfl)
  | setPml4 i p =>
    simp only [Tlb.step]
    split
    · exact h.relabel _ h.once fun j hj => (h.offline j hj).2
    · exact h
  | leaveSpace i =>
    have hr := h.reload (i := i) (p := 0) (.inl rfl)
    rwa [Function.update_eq_self] at hr

end

/-- **Deferred frames are safe**, in every interleaving in which nothing is deferred for an address
space that is being shot down, the CPUs in it are seen to be, and no wait is given up. -/
theorem deferred_free_run (s : State) (evs : List Event) (h0 : Boot s) (hrun : Run.Valid step Orderly s evs) :
    FreeOK (Run.final step s evs) :=
  (hrun.invariant (fun _ ev h hok => h.step ev hok) h0.inv).freeOK

/-- Three CPUs, each with a thread of one process. -/
def threeCpus : State where
  ncpu := 3
  space := fun i => if i < 3 then 7 else 0
  running := fun i => if i < 3 then some i else none
  current := fun i => if i < 3 then some i else none
  proc := fun _ => some 0
  pml4 := fun _ => 7
  pcs := [.idle, .idle, .idle]
  busy := none
  pending := 0
  ipi := fun _ => false
  arr := []
  overflow := []
  freed := []
  leaked := []
  nextId := 0
  stale := fun _ _ => false
  unacked := []
  done := []

theorem threeCpus_boot : Boot threeCpus := by
  refine ⟨by decide, rfl, rfl, fun _ => rfl, rfl, rfl, rfl, rfl, fun _ _ => rfl, rfl, ?_, ?_, rfl⟩
  · intro i j a hi hj
    simp only [threeCpus] at hi hj
    split at hi <;> split at hj <;> simp_all
  · intro i hi
    simp only [threeCpus] at hi ⊢
    rw [if_neg (Nat.not_lt.2 hi)]

/-- CPU 0 shoots down the address space up to the release of `shootdown_busy`. -/
def shootRun : List Event :=
  [.shootdown 0 7, .act 0 true, .act 0 true, .act 0 true, .act 0 true, .act 0 true, .act 0 true, .act 0 true,
    .act 0 true, .act 0 true, .act 0 true, .ack 1, .ack 2, .act 0 true, .act 0 true]

theorem threeCpus_seen {p self k : ℕ} (hne : k ≠ self) (hk : threeCpus.space k = p) : targeted p self threeCpus k := by
  subst hk
  simp only [threeCpus, targeted, State.currentPml4]
  split <;> simp_all

/-- One frame is deferred, shot down and freed. -/
theorem deferred_free_run_one :
    FreeOK (Run.final step threeCpus (.deferFree 0 5 0 7 :: (shootRun ++ [.act 0 true, .act 0 true]))) := by
  refine deferred_free_run threeCpus _ threeCpus_boot ⟨?_, trivial, ?_, ?_, ?_, ?_, ?_, ?_, ?_, ?_, ?_, ?_, trivial, trivial,
    ?_, ?_, ?_, ?_, trivial⟩
  · intro pc hpc shot hs
    rw [threeCpus_boot.idle pc hpc] at hs
    cases hs
  -- nobody switches, so the CPUs are as at the start
  all_goals exact fun _ p _ self k _ _ _ hne hk => threeCpus_seen hne hk

/-- A sibling defers a frame after the acknowledgements: it is freed while CPU 2 can still reach it. -/
theorem sibling_frame_freed_early : ¬ ∀ (s : State) (evs : List Event), Boot s → FreeOK (Run.final step s evs) := by
  intro h
  have hok := h threeCpus (shootRun ++ [.deferFree 1 5 0 7, .act 0 true, .act 0 true]) threeCpus_boot
  have hmem : (⟨0, 5, 0, 7⟩ : Entry) ∈
      (Run.final step threeCpus (shootRun ++ [.deferFree 1 5 0 7, .act 0 true, .act 0 true])).freed := by
    decide
  have hstale : (Run.final step threeCpus (shootRun ++ [.deferFree 1 5 0 7, .act 0 true, .act 0 true])).stale 2
      ⟨0, 5, 0, 7⟩ = true := by
    decide
  exact Bool.false_ne_true (((hok.safe _ hmem).clean 2).symm.trans hstale)

end NeoOS.Tlb
