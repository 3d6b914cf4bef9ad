import NeoOS.Lib.Run
import NeoOS.Proof.FdCalls

/-!
# Reference counts equal the descriptors that name an object

`Counted` says that an object has as many references as slots name it, over all processes, and
that it is there exactly as long as one does. It does not hold in every run: the hooks of a device
file leave the count of its vnode alone, an evdev client is freed by the first of its descriptors
that is closed, and a failed open of `/dev/ptmx` drops its vnode twice. `StepOK` leaves these out,
and `refs_follow_slots` is the count in every run that meets it.
-/

namespace NeoOS.Fd

open List
open Function (update_of_ne update_self)
open Option (mem_toList)
open State (openConsole slots)

variable {F : Files} {o : Objects} {s : State} {x : Obj} {e : Event} {i : ℕ} {r : Objects × Table}

/-- The references of `x` are the slots that name it (and the mount that pins it), it is there as
long as there is one, and a pty as long as one of its ends is open. -/
structure Counted (F : Files) (s : State) (x : Obj) : Prop where
  refs : s.objs.refs x = s.slots x + F.pin x
  live : s.objs.live x ↔ 0 < s.slots x + F.pin x
  pty : ∀ n, x = .ptm n ∨ x = .pts n → ((s.objs.ptys n).any (·.used) ↔ 0 < s.slots (.ptm n) + s.slots (.pts n))

/-- The descriptors that a call copies. -/
def copied (s : State) : Event → List FileDescriptor
  | .dup i oldfd .. | .dupFd i oldfd .. => ((s.tables i).get oldfd).toList
  | .dup2 i oldfd newfd _ | .dup3 i oldfd newfd _ => if oldfd = newfd then [] else ((s.tables i).get oldfd).toList
  | .fork i .. => (s.tables i).inUse
  | _ => []

/-- The descriptors that a call closes. -/
def closed (s : State) : Event → List FileDescriptor
  | .close i fd => ((s.tables i).get fd).toList
  | .dup2 i oldfd newfd _ | .dup3 i oldfd newfd _ => if oldfd = newfd then [] else ((s.tables i).get newfd).toList
  | .exit i => (s.tables i).inUse
  | _ => []

/-- `/dev/ptmx` is opened only when it finds a pty. -/
def PtmxOK (F : Files) (s : State) : Event → Prop
  | .open _ l _ _ _ mem _ => ∀ v ∈ l.file.toList ++ l.made.toList, F.typ v = .device .ptmx → PtyFree s.objs mem
  | _ => True

instance (F : Files) (s : State) : ∀ e, Decidable (PtmxOK F s e)
  | .open _ l _ _ _ mem _ => inferInstanceAs
      (Decidable (∀ v ∈ l.file.toList ++ l.made.toList, F.typ v = .device .ptmx → PtyFree s.objs mem))
  | .boot .. | .pipe .. | .socket .. | .dup .. | .dup2 .. | .dup3 .. | .dupFd .. | .close .. | .exec ..
  | .fork .. | .exit .. => isTrue trivial

/-- What a step has to avoid for `x` to stay counted. -/
structure StepOK (F : Files) (x : Obj) (s : State) (e : Event) : Prop where
  /-- no descriptor of an evdev client is copied -/
  evdev : ∀ f ∈ copied s e, f.ops ≠ .evdev
  ptmx : PtmxOK F s e
  /-- if `x` is a device's vnode, no descriptor that names it is copied or closed -/
  device : F.isDevice x → ∀ f ∈ copied s e ++ closed s e, f.names x = false

instance (F : Files) (x : Obj) (s : State) (e : Event) : Decidable (StepOK F x s e) :=
  decidable_of_iff ((∀ f ∈ copied s e, f.ops ≠ .evdev) ∧ PtmxOK F s e ∧
      (F.isDevice x = true → ∀ f ∈ copied s e ++ closed s e, f.names x = false))
    ⟨fun h => ⟨h.1, h.2.1, h.2.2⟩, fun h => ⟨h.evdev, h.ptmx, h.device⟩⟩

theorem StepOK.other {y : Obj} (h : StepOK F x s e) (hy : F.isDevice y = false) : StepOK F y s e :=
  ⟨h.evdev, h.ptmx, fun hd => by rw [hy] at hd; cases hd⟩

/-! ## Slots over all processes -/

theorem slots_put (hi : i < s.procs) (r : Objects × Table) (x : Obj) :
    (s.put i r).slots x + (s.tables i).held x = s.slots x + r.2.held x :=
  Update.sum_range s.tables (·.held x) r.2 hi

theorem slots_create (s : State) (r : Objects × Table) (x : Obj) : (s.create r).slots x = s.slots x + r.2.held x := by
  unfold slots State.create
  dsimp only
  rw [Finset.sum_range_succ, update_self]
  congr 1
  refine Finset.sum_congr rfl fun i hi => ?_
  rw [update_of_ne (Finset.mem_range.mp hi).ne]

@[simp] theorem init_held (x : Obj) : Table.init.held x = 0 := by
  rw [Table.held, init_inUse]
  rfl

theorem held_le_slots (hi : i < s.procs) (x : Obj) : (s.tables i).held x ≤ s.slots x := by
  have := slots_put hi (s.objs, .init) x
  rw [init_held] at this
  omega

/-! ## The invariant -/

/-- All objects but the vnodes of devices are counted. -/
structure Inv (F : Files) (s : State) : Prop where
  sane : Sane s.objs
  ok : ∀ i < s.procs, ∀ f ∈ (s.tables i).inUse, DescOK F f
  right : ∀ y, F.isDevice y = false → s.objs.refs y = s.slots y + F.pin y

theorem Inv.init (F : Files) : Inv F (.init F) where
  sane := by constructor <;> simp [State.init]
  ok i hi := absurd hi (Nat.not_lt_zero i)
  right y _ := by cases y <;> simp [State.init, Objects.refs, slots, Files.pin]

/-- The invariant holds after a step, and so does the count of `x` if it held before. -/
def Keeps (F : Files) (x : Obj) (s s' : State) : Prop :=
  Inv F s' ∧ (s.objs.refs x = s.slots x + F.pin x → s'.objs.refs x = s'.slots x + F.pin x)

theorem Ready.init (h : Sane o) : Ready F o Table.init where
  sane := h
  ok f hf := by rw [init_inUse] at hf; cases hf
  held y _ := by
    rw [init_held]
    exact h.refs_nonneg y

theorem boot_fine (h : Sane o) (room0 room1 room2 : Bool) :
    Fine F x o Table.init (openConsole F (openConsole F (openConsole F (o, Table.init) 0 false room0)
      1 true room1) 2 true room2) := by
  have h0 := Ready.init (F := F) h
  generalize hr1 : openConsole F (o, .init) 0 false room0 = r1
  have f1 : ∀ y, Fine F y o Table.init r1 := fun y => by
    rw [← hr1]; exact openConsole_fine (r := (o, .init)) h0 (by decide) false room0
  have h1 := h0.next (fun y _ => f1 y) (f1 x).sane (f1 x).ok
  generalize hr2 : openConsole F r1 1 true room1 = r2
  have f2 : ∀ y, Fine F y r1.1 r1.2 r2 := fun y => by
    rw [← hr2]; exact openConsole_fine h1 (by decide) true room1
  have h2 := h1.next (fun y _ => f2 y) (f2 x).sane (f2 x).ok
  have f3 : Fine F x r2.1 r2.2 (openConsole F r2 2 true room2) := openConsole_fine h2 (by decide) true room2
  refine ⟨f3.sane, f3.ok, ?_⟩
  have e1 := (f1 x).refs
  have e2 := (f2 x).refs
  have e3 := f3.refs
  omega

/-- `fd_table_dup2` under the condition that `dup2` and `dup3` share. -/
theorem dup2_step {oldfd newfd : ℤ} (h : Ready F s.objs (s.tables i))
    (hc : copied s e = if oldfd = newfd then [] else ((s.tables i).get oldfd).toList)
    (hcl : closed s e = if oldfd = newfd then [] else ((s.tables i).get newfd).toList)
    (hok : StepOK F x s e) (mem : Bool) :
    Fine F x s.objs (s.tables i) (fdTableDup2 s.objs (s.tables i) oldfd newfd mem).2 := by
  refine dup2_fine h oldfd newfd mem (fun hne f hf => hok.evdev f ?_) fun hne hd => ⟨fun f hf => ?_, fun f hf => ?_⟩
  · rw [hc, if_neg hne]; exact mem_toList.2 hf
  · exact hok.device hd f (mem_append_left _ (by rw [hc, if_neg hne]; exact mem_toList.2 hf))
  · exact hok.device hd f (mem_append_right _ (by rw [hcl, if_neg hne]; exact mem_toList.2 hf))

section

variable (h : Inv F s)
include h

theorem Inv.ready (hi : i < s.procs) : Ready F s.objs (s.tables i) where
  sane := h.sane
  ok := h.ok i hi
  held y hy := by
    have h1 := held_le_slots hi y
    have h2 := h.right y hy
    omega

theorem Keeps.refl : Keeps F x s s := ⟨h, id⟩

/-- A call that is fine for the one table it writes. -/
theorem Inv.moves {s' : State} {t : Table} (hf : ∀ y, F.isDevice y = false ∨ y = x → Fine F y s.objs t r)
    (hobjs : s'.objs = r.1) (hslots : ∀ y, s'.slots y + t.held y = s.slots y + r.2.held y)
    (htab : ∀ j < s'.procs, s'.tables j = r.2 ∨ j < s.procs ∧ s'.tables j = s.tables j) : Keeps F x s s' := by
  have hcount : ∀ y, F.isDevice y = false ∨ y = x → s.objs.refs y = s.slots y + F.pin y →
      s'.objs.refs y = s'.slots y + F.pin y := by
    intro y hy hr
    have h1 := hslots y
    have h2 := (hf y hy).refs
    rw [hobjs]
    omega
  have hx := hf x (.inr rfl)
  refine ⟨⟨hobjs ▸ hx.sane, fun j hj f hm => ?_, fun y hy => hcount y (.inl hy) (h.right y hy)⟩, hcount x (.inr rfl)⟩
  obtain ht | ⟨hlt, ht⟩ := htab j hj <;> rw [ht] at hm
  · exact hx.ok f hm
  · exact h.ok j hlt f hm

theorem Inv.put (hi : i < s.procs)
    (hf : ∀ y, F.isDevice y = false ∨ y = x → Fine F y s.objs (s.tables i) r) : Keeps F x s (s.put i r) := by
  refine h.moves hf rfl (slots_put hi r) fun j hj => ?_
  by_cases hji : j = i
  · subst hji
    exact .inl (update_self ..)
  · exact .inr ⟨hj, update_of_ne hji ..⟩

theorem Inv.create (hf : ∀ y, F.isDevice y = false ∨ y = x → Fine F y s.objs Table.init r) :
    Keeps F x s (s.create r) := by
  refine h.moves hf rfl (fun y => by rw [slots_create, init_held, add_zero]) fun j hj => ?_
  by_cases hji : j = s.procs
  · subst hji
    exact .inl (update_self ..)
  · exact .inr ⟨lt_of_le_of_ne (Nat.lt_succ_iff.mp hj) hji, update_of_ne hji ..⟩

theorem Inv.call (hi : i < s.procs) (hc : e.caller = some i) (hok : StepOK F x s e) : Keeps F x s (s.call F e) := by
  have hr := h.ready hi
  -- the condition for the object of the lemma and for every object that is counted anyway
  have hok' : ∀ y, F.isDevice y = false ∨ y = x → StepOK F y s e := by
    rintro y (hy | rfl)
    · exact hok.other hy
    · exact hok
  cases e with
  | boot => cases hc
  | «open» j l creat write room mem ready =>
    cases hc
    refine h.put hi fun y hy => sysOpen_fine hr l creat write room mem ready fun v hv => ?_
    refine hok.ptmx v ?_
    exact hv.elim (fun hv => mem_append_left _ (mem_toList.2 hv)) fun hv => mem_append_right _ (mem_toList.2 hv)
  | pipe j mem room room' =>
    cases hc
    exact h.put hi fun y _ => pipeCreate_fine hr mem room room'
  | socket j mem tcb room =>
    cases hc
    exact h.put hi fun y _ => socketCreate_fine hr mem tcb room
  | dup j oldfd room mem =>
    cases hc
    exact h.put hi fun y hy => dupFrom_fine hr oldfd 0 room mem (fun f hf => hok.evdev f (mem_toList.2 hf))
      fun hd f hf => (hok' y hy).device hd f (mem_append_left _ (mem_toList.2 hf))
  | dup2 j oldfd newfd mem =>
    cases hc
    refine h.put hi fun y hy => ?_
    unfold sysDup2
    split
    · exact hr.same
    split
    · exact hr.same
    · exact dup2_step hr rfl rfl (hok' y hy) mem
  | dup3 j oldfd newfd mem =>
    cases hc
    refine h.put hi fun y hy => ?_
    unfold sysDup3
    split
    · exact hr.same
    split
    · exact hr.same
    · exact dup2_step hr rfl rfl (hok' y hy) mem
  | dupFd j oldfd start room mem =>
    cases hc
    simp only [State.call]
    split
    · exact .refl h
    · exact h.put hi fun y hy => dupFrom_fine hr oldfd start room mem (fun f hf => hok.evdev f (mem_toList.2 hf))
        fun hd f hf => (hok' y hy).device hd f (mem_append_left _ (mem_toList.2 hf))
  | close j fd =>
    cases hc
    exact h.put hi fun y hy => sysClose_fine hr fd fun f hf hd => (hok' y hy).device hd f (mem_toList.2 hf)
  | exec j => exact .refl h
  | fork j early mem =>
    cases hc
    simp only [State.call]
    split
    · exact h.create fun y hy => forkFds_fine hr mem hok.evdev fun hd f hf =>
        (hok' y hy).device hd f (mem_append_left _ hf)
    · exact .refl h
  | exit j =>
    cases hc
    exact h.put hi fun y hy => free_fine hr fun hd f hf => (hok' y hy).device hd f hf

theorem Inv.step (hok : StepOK F x s e) : Keeps F x s (s.step F e) := by
  have hcall : e.caller.any (· < s.procs) → Keeps F x s (s.call F e) := by
    intro hc
    cases hi : e.caller with
    | none => rw [hi] at hc; cases hc
    | some i => rw [hi] at hc; exact h.call (of_decide_eq_true hc) hi hok
  unfold State.step
  split
  next room0 room1 room2 => exact h.create fun y _ => boot_fine h.sane room0 room1 room2
  next =>
    split
    next hc => exact hcall hc
    next => exact .refl h

/-- What the invariant says about an object that is counted. -/
theorem Inv.counted (hx : s.objs.refs x = s.slots x + F.pin x) : Counted F s x where
  refs := hx
  live := by rw [h.sane.live_iff, hx]; omega
  pty n _ := by
    have h1 := h.right (.ptm n) rfl
    have h2 := h.right (.pts n) rfl
    simp only [Objects.refs, Files.pin] at h1 h2
    cases hp : s.objs.ptys n with
    | none => simp [hp] at h1 h2 ⊢; omega
    | some p =>
      rw [Option.any_some, h.sane.ptys n p hp]
      simp [hp] at h1 h2
      omega

end

/-- **Descriptor references.** In every run in which no descriptor of an evdev client is copied,
`/dev/ptmx` is opened only when a pty is free and, if `x` is a device's vnode, no descriptor that
names it is copied or closed: `x` has one reference for each slot that names it, and it is closed
when the last one goes away. -/
theorem refs_follow_slots (F : Files) (x : Obj) (es : List Event)
    (hv : Run.Valid (.step F) (StepOK F x) (.init F) es) :
    Counted F (Run.final (.step F) (.init F) es) x := by
  have hinv := hv.invariant (I := fun s => Inv F s ∧ s.objs.refs x = s.slots x + F.pin x)
    (fun s e h hok => ⟨(h.1.step hok).1, (h.1.step hok).2 h.2⟩) ⟨.init F, ?_⟩
  · exact hinv.1.counted hinv.2
  · cases x <;> simp [State.init, Objects.refs, slots, Files.pin]

/-- A root directory, the console, `/dev/null`, `/dev/input/event0` and plain files. -/
def fewFiles : Files where
  typ v := match v with
    | 0 => .dir
    | 1 => .device .console
    | 2 => .device .null
    | 3 => .device .event0
    | _ => .file
  pins v := if v = 0 then 1 else 0
  console := 1
  console_typ := rfl

/-- The first process opens the file `v` and forks. -/
def openAndFork (v : ℕ) : List Event :=
  [.boot true true true, .open 0 ⟨some v, none, false, none⟩ false false true true true, .fork 0 true fun _ => true]

/-- A plain file is opened, inherited and closed by the parent: the child's descriptor keeps it. -/
theorem refs_follow_slots_fork :
    Counted fewFiles (Run.final (.step fewFiles) (.init fewFiles) (openAndFork 4 ++ [.close 0 3])) (.vnode 4) ∧
      (Run.final (State.step fewFiles) (.init fewFiles) (openAndFork 4 ++ [.close 0 3])).slots (.vnode 4) = 1 :=
  ⟨refs_follow_slots fewFiles (.vnode 4) _ (by decide +kernel), by decide +kernel⟩

/-- An evdev client is gone when the child exits, with the parent's descriptor still naming it; and
the vnode of `/dev/null` keeps its reference after the only descriptor is closed. -/
theorem hooks_miscount :
    ¬ Counted fewFiles (Run.final (.step fewFiles) (.init fewFiles) (openAndFork 3 ++ [.exit 1])) (.client 0) ∧
      ¬ Counted fewFiles (Run.final (.step fewFiles) (.init fewFiles)
        [.boot true true true, .open 0 ⟨some 2, none, false, none⟩ false false true true true, .close 0 3])
          (.vnode 2) :=
  ⟨fun h => absurd h.refs (by decide +kernel), fun h => absurd h.refs (by decide +kernel)⟩

end NeoOS.Fd
