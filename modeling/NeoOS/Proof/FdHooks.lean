import NeoOS.Proof.FdTable

/-!
# What the hooks do to the reference counts

`fileDup` and `fileClose` touch what the descriptor names and nothing else. Where they count, they
move the count by one; a device's hooks leave the count of its vnode alone, and those of an evdev
client do not count copies. `Sane` is what the objects keep in every case.
-/

namespace NeoOS.Fd

open List Option
open Function (update update_of_ne update_self)
open Objects (live refs sockPut unrefMaster unrefSlave)
open Update (forall_none forall_some)

variable {F : Files} {o : Objects} {f : FileDescriptor} {x : Obj} {k a n : ℕ} {p : Pty}

/-- The vnode of a device file. -/
def Files.isDevice (F : Files) : Obj → Bool
  | .vnode v => match F.typ v with
    | .device _ => true
    | _ => false
  | _ => false

/-- A descriptor with a vnode uses the vnode's own operations unless it is a device. -/
def DescOK (F : Files) (f : FileDescriptor) : Prop :=
  ∀ v, f.vn = some v → (f.ops = .vnode ↔ F.isDevice (.vnode v) = false)

/-- What the objects keep, whatever the descriptors do. -/
structure Sane (o : Objects) : Prop where
  pipes : ∀ a p, o.pipes a = some p → 0 < p.refs ∧ p.freed = false
  sockets : ∀ a r, o.sockets a = some r → 0 < r
  clients : ∀ a n, o.clients a = some n → n = 1
  freshPipe : ∀ a, o.heap ≤ a → o.pipes a = none
  freshSocket : ∀ a, o.heap ≤ a → o.sockets a = none
  freshClient : ∀ a, o.heap ≤ a → o.clients a = none
  ptys : ∀ n p, o.ptys n = some p → (p.used ↔ 0 < p.masterRefs + p.slaveRefs)
  dyn : ∀ d n, o.dyn d = some n → d < devfsDynMax ∧ n < ptyMax ∧ (o.ptys n).any (·.used)
  inj : ∀ d d' n, o.dyn d = some n → o.dyn d' = some n → d = d'

/-! ## The hooks -/

section hooks

theorem Sane.live_iff (h : Sane o) (x : Obj) : o.live x ↔ 0 < o.refs x := by
  cases x with
  | vnode v => simp [live, refs, Nat.pos_iff_ne_zero]
  | pipe a =>
    cases hp : o.pipes a with
    | none => simp [live, refs, hp]
    | some p => simp [live, refs, hp, (h.pipes a p hp).1]
  | socket a =>
    cases hp : o.sockets a with
    | none => simp [live, refs, hp]
    | some r => simp [live, refs, hp, h.sockets a r hp]
  | client a =>
    cases hp : o.clients a with
    | none => simp [live, refs, hp]
    | some n => simp [live, refs, hp, h.clients a n hp]
  | ptm n | pts n =>
    cases hp : o.ptys n <;> simp [live, refs, hp, Nat.pos_iff_ne_zero]

@[simp] theorem refs_vnodeGet (o : Objects) (v : ℕ) (x : Obj) :
    (o.vnodeGet v).refs x = o.refs x + if x = .vnode v then 1 else 0 := by
  cases x with
  | vnode w =>
    by_cases hw : w = v
    · subst hw; simp [Objects.vnodeGet, refs]
    · simp [Objects.vnodeGet, refs, hw]
  | _ => simp [Objects.vnodeGet, refs]

theorem refs_vnodePut (o : Objects) (v : ℕ) (x : Obj) (h : x = .vnode v → 0 < o.refs x) :
    (o.vnodePut v).refs x = o.refs x - if x = .vnode v then 1 else 0 := by
  unfold Objects.vnodePut
  cases x with
  | vnode w =>
    by_cases hw : w = v
    · subst hw
      have h := h rfl
      simp only [refs] at h
      have hne : o.vnodes w ≠ 0 := by omega
      simp only [hne, if_false, refs, update_self, if_true]
      omega
    · split <;> simp [refs, hw]
  | _ => split <;> simp [refs]

@[simp] theorem refs_devfsUnregister (o : Objects) (n : ℕ) (x : Obj) : (o.devfsUnregister n).refs x = o.refs x := by
  unfold Objects.devfsUnregister
  split <;> cases x <;> rfl

theorem refs_setPty (o : Objects) (n : ℕ) (p : Pty) (x : Obj) :
    (o.setPty n p).refs x = if x = .ptm n then (p.masterRefs : ℤ) else if x = .pts n then (p.slaveRefs : ℤ)
      else o.refs x := by
  cases x with
  | ptm m | pts m =>
    by_cases hm : m = n
    · subst hm; simp [Objects.setPty, refs]
    · simp [Objects.setPty, refs, hm]
  | _ => simp [Objects.setPty, refs]

theorem refs_ptyDropped (o : Objects) (n : ℕ) (p : Pty) (x : Obj) : (o.ptyDropped n p).refs x = (o.setPty n p).refs x := by
  unfold Objects.ptyDropped
  split
  · rw [refs_devfsUnregister, refs_setPty, refs_setPty]
  · rfl

theorem names_iff (f : FileDescriptor) (x : Obj) : f.names x ↔ match x with
    | .vnode v => f.vn = some v
    | .pipe a => f.ops = .pipe ∧ f.priv = some a
    | .socket a => f.ops = .socket ∧ f.priv = some a
    | .client a => f.ops = .evdev ∧ f.priv = some a
    | .ptm n => f.ops = .ptm ∧ f.priv = some n
    | .pts n => f.ops = .pts ∧ f.priv = some n := by
  cases x <;> simp [FileDescriptor.names]

/-- The object that `priv` is the address of. -/
def Ops.obj : Ops → ℕ → Option Obj
  | .pipe, a => some (.pipe a)
  | .socket, a => some (.socket a)
  | .evdev, a => some (.client a)
  | .ptm, n => some (.ptm n)
  | .pts, n => some (.pts n)
  | _, _ => none

theorem names_eq (f : FileDescriptor) (x : Obj) :
    f.names x = (decide (f.vn.map .vnode = some x) || decide (f.priv.bind f.ops.obj = some x)) := by
  rw [Bool.eq_iff_iff, names_iff]
  rcases f with ⟨u, ops, priv, vn, w, r⟩
  cases priv with
  | none => cases x <;> simp
  | some a => cases ops <;> cases x <;> simp [Ops.obj]

/-- `file_close` leaves alone what the descriptor does not name. -/
theorem fileClose_frame (o : Objects) (h : f.names x = false) : (fileClose o f).refs x = o.refs x := by
  have hn : ¬ f.names x := by simp [h]
  rw [names_iff] at hn
  unfold fileClose
  split
  next =>
    split
    · rfl
    next v hv =>
      have hx : x ≠ .vnode v := by rintro rfl; exact hn hv
      rw [refs_vnodePut o v x fun h => absurd h hx, if_neg hx, sub_zero]
  next hop =>
    split
    · rfl
    next a ha =>
      cases x with
      | pipe b =>
        have hb : b ≠ a := by rintro rfl; exact hn ⟨hop, ha⟩
        simp [refs, hb]
      | _ => rfl
  next hop =>
    split
    · rfl
    next a ha =>
      unfold sockPut
      split
      · rfl
      · cases x with
        | socket b =>
          have hb : b ≠ a := by rintro rfl; exact hn ⟨hop, ha⟩
          simp [refs, hb]
        | _ => rfl
  next hop =>
    split
    · rfl
    next a ha =>
      cases x with
      | client b =>
        have hb : b ≠ a := by rintro rfl; exact hn ⟨hop, ha⟩
        simp [refs, hb]
      | _ => rfl
  next hop =>
    split
    · rfl
    next n ha =>
      unfold unrefMaster
      split
      · rfl
      next p hp =>
        rw [refs_ptyDropped, refs_setPty, if_neg (by rintro rfl; exact hn ⟨hop, ha⟩)]
        split
        next hx => subst hx; simp [refs, hp]
        next => rfl
  next hop =>
    split
    · rfl
    next n ha =>
      unfold unrefSlave
      split
      · rfl
      next p hp =>
        have hx : x ≠ .pts n := by rintro rfl; exact hn ⟨hop, ha⟩
        rw [refs_ptyDropped, refs_setPty, if_neg hx]
        split
        next hx => subst hx; simp [refs, hp]
        next => rfl
  all_goals rfl

/-- `file_close` drops a reference of what the descriptor names, a device's vnode apart. -/
theorem fileClose_named (hs : Sane o) (hf : DescOK F f) (hdev : F.isDevice x = false) (h : f.names x)
    (hpos : 0 < o.refs x) : (fileClose o f).refs x = o.refs x - 1 := by
  rw [names_iff] at h
  cases x with
  | vnode v =>
    have hop : f.ops = .vnode := (hf v h).mpr hdev
    simp only [fileClose, hop, h]
    rw [refs_vnodePut o v _ fun _ => hpos, if_pos rfl]
  | pipe a =>
    obtain ⟨hop, ha⟩ := h
    cases hp : o.pipes a with
    | none => simp [refs, hp] at hpos
    | some p =>
      simp only [fileClose, hop, ha, refs, hp, update_self, bind_some, pipeClosed,
        Pipe.pipeClose, (hs.pipes a p hp).2, Bool.false_or, decide_eq_true_eq, elim_some]
      split
      next h0 => simp [h0]
      next => simp
  | socket a =>
    obtain ⟨hop, ha⟩ := h
    cases hp : o.sockets a with
    | none => simp [refs, hp] at hpos
    | some r =>
      simp only [fileClose, hop, ha, sockPut, refs, hp, update_self, getD_some]
      split
      next h0 => simp [h0]
      next => simp
  | client a =>
    obtain ⟨hop, ha⟩ := h
    cases hp : o.clients a with
    | none => simp [refs, hp] at hpos
    | some n => simp [fileClose, hop, ha, refs, hp, hs.clients a n hp]
  | ptm n | pts n =>
    obtain ⟨hop, ha⟩ := h
    cases hp : o.ptys n with
    | none => simp [refs, hp] at hpos
    | some p =>
      simp only [fileClose, hop, ha, unrefMaster, unrefSlave, hp, refs_ptyDropped, refs_setPty, if_true,
        reduceCtorEq, if_false]
      simp only [refs, hp, elim_some] at hpos ⊢
      omega

/-- `file_dup` leaves alone what the descriptor does not name. -/
theorem fileDup_frame (o : Objects) (h : f.names x = false) : (fileDup o f).refs x = o.refs x := by
  have hn : ¬ f.names x := by simp [h]
  rw [names_iff] at hn
  unfold fileDup
  split
  next =>
    split
    · rfl
    next v hv => rw [refs_vnodeGet, if_neg (by rintro rfl; exact hn hv), add_zero]
  next hop =>
    split
    · rfl
    next a ha =>
      cases x with
      | pipe b =>
        have hb : b ≠ a := by rintro rfl; exact hn ⟨hop, ha⟩
        simp [refs, hb]
      | _ => rfl
  next hop =>
    split
    · rfl
    next a ha =>
      cases x with
      | socket b =>
        have hb : b ≠ a := by rintro rfl; exact hn ⟨hop, ha⟩
        simp [refs, hb]
      | _ => rfl
  next hop =>
    split
    · rfl
    next n ha =>
      cases x with
      | ptm m =>
        have hm : m ≠ n := by rintro rfl; exact hn ⟨hop, ha⟩
        simp [refs, Objects.modifyPty, hm]
      | pts m =>
        by_cases hm : m = n
        · subst hm; cases hp : o.ptys m <;> simp [refs, Objects.modifyPty, hp]
        · simp [refs, Objects.modifyPty, hm]
      | _ => rfl
  next hop =>
    split
    · rfl
    next n ha =>
      cases x with
      | pts m =>
        have hm : m ≠ n := by rintro rfl; exact hn ⟨hop, ha⟩
        simp [refs, Objects.modifyPty, hm]
      | ptm m =>
        by_cases hm : m = n
        · subst hm; cases hp : o.ptys m <;> simp [refs, Objects.modifyPty, hp]
        · simp [refs, Objects.modifyPty, hm]
      | _ => rfl
  all_goals rfl

/-- `file_dup` takes a reference of what the descriptor names, a device's vnode and an evdev client
apart. -/
theorem fileDup_named (hf : DescOK F f) (hdev : F.isDevice x = false) (hev : f.ops ≠ .evdev)
    (h : f.names x) (hpos : 0 < o.refs x) : (fileDup o f).refs x = o.refs x + 1 := by
  rw [names_iff] at h
  cases x with
  | vnode v =>
    have hop : f.ops = .vnode := (hf v h).mpr hdev
    simp only [fileDup, hop, h]
    rw [refs_vnodeGet, if_pos rfl]
  | pipe a =>
    obtain ⟨hop, ha⟩ := h
    cases hp : o.pipes a with
    | none => simp [refs, hp] at hpos
    | some p => simp [fileDup, hop, ha, refs, hp, Pipe.pipeDup]
  | socket a =>
    obtain ⟨hop, ha⟩ := h
    cases hp : o.sockets a with
    | none => simp [refs, hp] at hpos
    | some r => simp [fileDup, hop, ha, refs, hp]
  | client a => exact absurd h.1 hev
  | ptm n | pts n =>
    obtain ⟨hop, ha⟩ := h
    cases hp : o.ptys n with
    | none => simp [refs, hp] at hpos
    | some p => simp [fileDup, hop, ha, refs, Objects.modifyPty, hp]

end hooks

/-! ## The objects stay sane -/

namespace Sane

section Hooks

variable (h : Sane o)
include h

theorem vnodeGet (v : ℕ) : Sane (o.vnodeGet v) := { h with }

theorem vnodePut (v : ℕ) : Sane (o.vnodePut v) := by
  unfold Objects.vnodePut
  split
  · exact h
  · exact { h with }

theorem grow (hk : o.heap ≤ k) : Sane { o with heap := k } :=
  { h with
    freshPipe := fun a ha => h.freshPipe a (hk.trans ha)
    freshSocket := fun a ha => h.freshSocket a (hk.trans ha)
    freshClient := fun a ha => h.freshClient a (hk.trans ha) }

theorem setPipe {v : Option Pipe.Object} (hk : o.heap ≤ k) (hv : ∀ p, v = some p → 0 < p.refs ∧ p.freed = false)
    (hnew : k ≤ a → v = none) : Sane { o with pipes := update o.pipes a v, heap := k } :=
  { h.grow hk with
    pipes := forall_some h.pipes hv
    freshPipe := forall_none (h.grow hk).freshPipe hnew }

theorem setSocket {v : Option ℤ} (hk : o.heap ≤ k) (hv : ∀ r, v = some r → 0 < r)
    (hnew : k ≤ a → v = none) : Sane { o with sockets := update o.sockets a v, heap := k } :=
  { h.grow hk with
    sockets := forall_some h.sockets hv
    freshSocket := forall_none (h.grow hk).freshSocket hnew }

theorem setClient {v : Option ℕ} (hk : o.heap ≤ k) (hv : ∀ n, v = some n → n = 1)
    (hnew : k ≤ a → v = none) : Sane { o with clients := update o.clients a v, heap := k } :=
  { h.grow hk with
    clients := forall_some h.clients hv
    freshClient := forall_none (h.grow hk).freshClient hnew }

theorem setPty (hu : p.used ↔ 0 < p.masterRefs + p.slaveRefs)
    (hd : p.used = false → ∀ d, o.dyn d ≠ some n) : Sane (o.setPty n p) :=
  { h with
    ptys := forall_some h.ptys fun q hq => by cases hq; exact hu
    dyn := fun d m hm => by
      obtain ⟨h1, h2, h3⟩ := h.dyn d m hm
      refine ⟨h1, h2, ?_⟩
      simp only [Objects.setPty]
      by_cases hmn : m = n
      · subst hmn
        rw [update_self]
        cases hpu : p.used with
        | true => simp [hpu]
        | false => exact absurd hm (hd hpu d)
      · rw [update_of_ne hmn]; exact h3 }

theorem giveUp (n : ℕ) (p : Pty) (hm : p.masterRefs = 0) (hs : p.slaveRefs = 0) :
    Sane ((o.setPty n { p with used := false }).devfsUnregister n) := by
  have hput : ∀ m q, (o.setPty n { p with used := false }).ptys m = some q → (q.used ↔ 0 < q.masterRefs + q.slaveRefs) :=
    forall_some h.ptys fun q hq => by cases hq; simp [hm, hs]
  -- any other entry is of a pty that has not changed
  have hkeep : ∀ d m, o.dyn d = some m → m ≠ n → ((o.setPty n { p with used := false }).ptys m).any (·.used) := by
    intro d m hdm hmn
    simp only [Objects.setPty, update_of_ne hmn]
    exact (h.dyn d m hdm).2.2
  unfold Objects.devfsUnregister
  split
  next hnone =>
    have hno : ∀ d, o.dyn d ≠ some n := by
      intro d hd
      have := find?_eq_none.mp hnone d (mem_range.mpr (h.dyn d n hd).1)
      exact this (decide_eq_true hd)
    exact ⟨h.pipes, h.sockets, h.clients, h.freshPipe, h.freshSocket, h.freshClient, hput, fun d m hdm =>
      ⟨(h.dyn d m hdm).1, (h.dyn d m hdm).2.1, hkeep d m hdm fun hmn => hno d (hmn ▸ hdm)⟩, h.inj⟩
  next d0 hd0 =>
    have hd0n : o.dyn d0 = some n := by
      have hd := find?_some hd0
      exact of_decide_eq_true hd
    refine { h with ptys := hput, dyn := fun d m hdm => ?_, inj := fun d d' m hdm hdm' => ?_ }
    · simp only [Objects.setPty] at hdm
      by_cases hdd : d = d0
      · subst hdd; rw [update_self] at hdm; cases hdm
      · rw [update_of_ne hdd] at hdm
        refine ⟨(h.dyn d m hdm).1, (h.dyn d m hdm).2.1, hkeep d m hdm ?_⟩
        rintro rfl
        exact hdd (h.inj d d0 _ hdm hd0n)
    · simp only [Objects.setPty] at hdm hdm'
      by_cases hdd : d = d0
      · subst hdd; rw [update_self] at hdm; cases hdm
      · by_cases hdd' : d' = d0
        · subst hdd'; rw [update_self] at hdm'; cases hdm'
        · rw [update_of_ne hdd] at hdm
          rw [update_of_ne hdd'] at hdm'
          exact h.inj d d' m hdm hdm'

theorem ptyDropped {q : Pty} (hq : o.ptys n = some q) (hpq : p.used = q.used)
    (hle : p.masterRefs + p.slaveRefs ≤ q.masterRefs + q.slaveRefs) : Sane (o.ptyDropped n p) := by
  have hqu := h.ptys n q hq
  unfold Objects.ptyDropped
  split
  next hc =>
    simp only [Bool.and_eq_true, beq_iff_eq] at hc
    exact h.giveUp n p hc.1.2 hc.2
  next hc =>
    simp only [Bool.and_eq_true, beq_iff_eq, not_and] at hc
    refine h.setPty ⟨fun hu => ?_, fun hpos => ?_⟩ fun hu d hd => ?_
    · by_contra h0
      exact hc ⟨hu, by omega⟩ (by omega)
    · rw [hpq]
      exact hqu.mpr (by omega)
    · have := (h.dyn d n hd).2.2
      rw [hq, any_some, ← hpq, hu] at this
      cases this

theorem close (f : FileDescriptor) : Sane (fileClose o f) := by
  unfold fileClose
  split
  next =>
    split
    · exact h
    · exact h.vnodePut _
  next =>
    split
    · exact h
    next a ha =>
      refine h.setPipe le_rfl (fun p hp => ?_) fun hle => by rw [h.freshPipe a hle]; rfl
      cases hq : o.pipes a with
      | none => rw [hq] at hp; cases hp
      | some q =>
        obtain ⟨hpos, hfr⟩ := h.pipes a q hq
        simp only [hq, bind_some, pipeClosed, Pipe.pipeClose, hfr, Bool.false_or, decide_eq_true_eq] at hp
        split at hp
        · cases hp
        next h0 =>
          cases hp
          simp only [decide_eq_false_iff_not]
          omega
  next =>
    split
    · exact h
    next a ha =>
      unfold sockPut
      split
      · exact h
      next r hr =>
        refine h.setSocket le_rfl (fun r' hr' => ?_) fun hle => by rw [h.freshSocket a hle] at hr; cases hr
        have := h.sockets a r hr
        split at hr'
        · cases hr'
        · cases hr'; omega
  next =>
    split
    · exact h
    · exact h.setClient le_rfl (fun _ hn => nomatch hn) fun _ => rfl
  next =>
    split
    · exact h
    next n hn =>
      unfold unrefMaster
      split
      · exact h
      next p hp => exact h.ptyDropped hp rfl (by dsimp only; omega)
  next =>
    split
    · exact h
    next n hn =>
      unfold unrefSlave
      split
      · exact h
      next p hp => exact h.ptyDropped hp rfl (by dsimp only; omega)
  all_goals exact h

/-- An end of a pty that has a reference is duplicated. -/
theorem modifyPty {g : Pty → Pty} (hg : ∀ p, (g p).used = p.used)
    (hle : ∀ p, p.masterRefs + p.slaveRefs ≤ (g p).masterRefs + (g p).slaveRefs)
    (hpos : 0 < o.refs (.ptm n) ∨ 0 < o.refs (.pts n)) : Sane (o.modifyPty n g) := by
  cases hp : o.ptys n with
  | none => simp [refs, hp] at hpos
  | some p =>
    have hu : 0 < p.masterRefs + p.slaveRefs := by
      simp only [refs, hp, elim_some] at hpos
      omega
    have hused := (h.ptys n p hp).mpr hu
    have heq : o.modifyPty n g = o.setPty n (g p) := by simp [Objects.modifyPty, Objects.setPty, hp]
    rw [heq]
    refine h.setPty ⟨fun _ => lt_of_lt_of_le hu (hle p), fun _ => by rw [hg]; exact hused⟩ fun hf => ?_
    rw [hg, hused] at hf
    cases hf

theorem dup (f : FileDescriptor) (hpos : ∀ n, f.names (.ptm n) ∨ f.names (.pts n) → 0 < o.refs (.ptm n) ∨
    0 < o.refs (.pts n)) :
    Sane (fileDup o f) := by
  unfold fileDup
  split
  next =>
    split
    · exact h
    · exact h.vnodeGet _
  next =>
    split
    · exact h
    next a ha =>
      refine h.setPipe le_rfl (fun p hp => ?_) fun hle => by rw [h.freshPipe a hle]; rfl
      obtain ⟨q, hq, rfl⟩ := map_eq_some_iff.mp hp
      obtain ⟨hq1, hq2⟩ := h.pipes a q hq
      exact ⟨by simp only [Pipe.pipeDup]; omega, hq2⟩
  next =>
    split
    · exact h
    next a ha =>
      refine h.setSocket le_rfl (fun r hr => ?_) fun hle => by rw [h.freshSocket a hle]; rfl
      obtain ⟨q, hq, rfl⟩ := map_eq_some_iff.mp hr
      have := h.sockets a q hq
      omega
  next hop =>
    split
    · exact h
    next n hn =>
      refine h.modifyPty (fun _ => rfl) (fun p => by dsimp only; omega) (hpos n (.inl ?_))
      exact (names_iff f (.ptm n)).mpr ⟨hop, hn⟩
  next hop =>
    split
    · exact h
    next n hn =>
      refine h.modifyPty (fun _ => rfl) (fun p => by dsimp only; omega) (hpos n (.inr ?_))
      exact (names_iff f (.pts n)).mpr ⟨hop, hn⟩
  all_goals exact h

end Hooks

end Sane

/-! ## Hooks over a list of descriptors -/

theorem not_device (hdev : F.isDevice x → f.names x = false) (hn : f.names x) : F.isDevice x = false := by
  cases hd : F.isDevice x with
  | false => rfl
  | true => rw [hdev hd] at hn; cases hn

theorem fileClose_refs (hs : Sane o) (hf : DescOK F f) (hdev : F.isDevice x → f.names x = false)
    (hpos : f.names x → 0 < o.refs x) : (fileClose o f).refs x = o.refs x - (f.names x).toNat := by
  cases hn : f.names x with
  | false => simp [fileClose_frame o hn]
  | true =>
    rw [fileClose_named hs hf (not_device hdev hn) hn (hpos hn)]
    rfl

theorem fileDup_refs (hf : DescOK F f) (hdev : F.isDevice x → f.names x = false) (hev : f.ops ≠ .evdev)
    (hpos : f.names x → 0 < o.refs x) : (fileDup o f).refs x = o.refs x + (f.names x).toNat := by
  cases hn : f.names x with
  | false => simp [fileDup_frame o hn]
  | true =>
    rw [fileDup_named hf (not_device hdev hn) hev hn (hpos hn)]
    rfl

theorem foldl_close (l : List FileDescriptor) (hok : ∀ f ∈ l, DescOK F f) (hdev : F.isDevice x → ∀ f ∈ l, f.names x = false) :
    ∀ o, Sane o → (l.countP (·.names x) : ℤ) ≤ o.refs x →
      Sane (l.foldl fileClose o) ∧ (l.foldl fileClose o).refs x = o.refs x - l.countP (·.names x) := by
  induction l with
  | nil => exact fun o hs _ => ⟨hs, by simp⟩
  | cons f l ih =>
    obtain ⟨hf, hok⟩ := forall_mem_cons.1 hok
    intro o hs hle
    rw [countP_cons] at hle
    have h1 := fileClose_refs hs hf (fun h => hdev h f mem_cons_self) fun hn => by rw [if_pos hn] at hle; omega
    obtain ⟨hs', hr⟩ := ih hok (fun h => (forall_mem_cons.1 (hdev h)).2) _ (hs.close f) (by
      cases hn : f.names x <;> simp [hn] at h1 hle ⊢ <;> omega)
    refine ⟨hs', ?_⟩
    rw [foldl_cons, countP_cons, hr, h1]
    cases f.names x
    · simp
    · simp; omega

theorem foldl_dup (l : List FileDescriptor) (hok : ∀ f ∈ l, DescOK F f) (hev : ∀ f ∈ l, f.ops ≠ .evdev) :
    ∀ o, Sane o → (∀ f ∈ l, ∀ y, (F.isDevice y → f.names y = false) → f.names y → 0 < o.refs y) →
      Sane (l.foldl fileDup o) ∧ ∀ x, (F.isDevice x → ∀ f ∈ l, f.names x = false) →
        (l.foldl fileDup o).refs x = o.refs x + l.countP (·.names x) := by
  induction l with
  | nil => exact fun o hs _ => ⟨hs, by simp⟩
  | cons f l ih =>
    obtain ⟨hf, hok⟩ := forall_mem_cons.1 hok
    obtain ⟨hfe, hev⟩ := forall_mem_cons.1 hev
    intro o hs hpos
    obtain ⟨hfp, hpos⟩ := forall_mem_cons.1 hpos
    have h1 := fun y hy => fileDup_refs hf hy hfe (hfp y hy)
    obtain ⟨hs', hr⟩ := ih hok hev (fileDup o f) (hs.dup f fun n hn => hn.imp (hfp _ nofun) (hfp _ nofun))
      fun g hg y hy hn => by
      have h0 := hpos g hg y hy hn
      rw [h1 y fun hd => absurd (hy hd) (by simp [hn])]
      omega
    refine ⟨hs', fun x hx => ?_⟩
    rw [foldl_cons, countP_cons, hr x fun h => (forall_mem_cons.1 (hx h)).2, h1 x fun h => hx h f mem_cons_self]
    cases f.names x
    · simp
    · simp; omega

end NeoOS.Fd
