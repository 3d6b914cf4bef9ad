import NeoOS.Proof.Frames
import NeoOS.Proof.Leaves

/-!
# What an address space refers to

`spaceRefs as f` counts the references of an address space to frame `f`: one for each
leaf that owns it, one for each table, one for the PML4. `VmOK aim E vm` says that the
kernel's accounts cover these and the references `E` of everybody else; a reference in
the hands of a walk is part of `E`. Taking a frame, writing an entry and giving a frame
back are one lemma each, and the walks of `paging.c` are made of them.
-/

namespace NeoOS

open AddrSpace
open Buddy (In)

variable {E E' : ℕ → ℕ} {k k' : Kernel} {vm vm' : Vm} {as : AddrSpace} {e flags : Pte}
  {l key v va f x : ℕ}

/-- The entry holds a reference: mapped or parked, and not a device page. -/
def Pte.owns (e : Pte) : Bool := e.hasFrame && !e.nofree

/-- The reference of an entry. -/
def own (e : Pte) (f : ℕ) : ℕ := if e.owns = true ∧ e.frame = f then 1 else 0

@[simp] theorem own_zero (f : ℕ) : own Pte.zero f = 0 := rfl

theorem own_owns (h : e.owns) (f : ℕ) : own e f = one e.frame f := by
  unfold own one
  simp only [h, true_and, eq_comm]

theorem own_not (h : e.owns = false) (f : ℕ) : own e f = 0 := by
  unfold own
  rw [h]
  exact if_neg fun h => absurd h.1 (by decide)

theorem own_table (g f : ℕ) : own (.table g) f = one g f := own_owns rfl f

theorem own_self (h : e.owns) : own e e.frame = 1 := by rw [own_owns h, one_self]

theorem own_le_one (e : Pte) (f : ℕ) : own e f ≤ 1 := by
  unfold own; split <;> omega

theorem owns_of_own (h : own e f ≠ 0) : e.owns ∧ e.frame = f := by
  by_contra hn
  exact h (if_neg hn)

/-- The references of an address space. -/
def spaceRefs (as : AddrSpace) (f : ℕ) : ℕ :=
  one as.pml4 f + Radix.forest 512 (fun l key => own (as.ent l key) f) 4 userSlots

theorem spaceRefs_put (as : AddrSpace) (hc : UserCell l key) (e : Pte) (f : ℕ) :
    spaceRefs (as.put l key e) f + own (as.ent l key) f = spaceRefs as f + own e f := by
  have h := Radix.forest_change (fun l key => own (as.ent l key) f)
    (fun l' key' => own ((as.put l key e).ent l' key') f) (by decide : 0 < 512) hc.pos hc.le hc.slot
    fun l' key' hne => by rw [put_other hne]
  unfold spaceRefs
  simp only [put_self, put_pml4] at h ⊢
  omega

theorem own_le_spaceRefs (as : AddrSpace) (hc : UserCell l key) (f : ℕ) : own (as.ent l key) f ≤ spaceRefs as f :=
  (Radix.le_forest (w := fun l key => own (as.ent l key) f) (by decide) hc.pos hc.le hc.slot).trans (Nat.le_add_left _ _)

theorem own_add_le_spaceRefs (as : AddrSpace) (hv : UserCell 1 v) (hx : UserCell 1 x) (hne : x ≠ v) (f : ℕ) :
    own (as.ent 1 v) f + own (as.ent 1 x) f ≤ spaceRefs as f :=
  (Radix.add_le_forest (w := fun l key => own (as.ent l key) f) (by decide) hv.pos hv.le hv.slot hx.pos hx.le
    hx.slot fun h => hne h.2).trans (Nat.le_add_left _ _)

/-- What the accounts are kept for: that no reference is lost, that a frame somebody may
write to has no other reference. Device pages show the frames of `device`. -/
structure Aim where
  noLeak : Prop
  apart : Prop
  device : ℕ → Prop

variable {aim : Aim}

/-- What holds of the leaves of a process. -/
structure LeavesOK (aim : Aim) (k : Kernel) (as : AddrSpace) : Prop where
  wf : WF as
  frames : ∀ f, 0 < spaceRefs as f → f ≠ 0 ∧ f < maxFrames
  dev : ∀ v, UserCell 1 v → (as.ent 1 v).nofree → (as.ent 1 v).cow = false ∧ aim.device (as.ent 1 v).frame
  sole : aim.apart → ∀ v, UserCell 1 v → (as.ent 1 v).owns → (as.ent 1 v).writable → k.pmm.refcount (as.ent 1 v).frame = 1

/-- **The accounts of one address space**, `E` being all other references. -/
structure VmOK (aim : Aim) (E : ℕ → ℕ) (vm : Vm) : Prop where
  kern : KernOK aim.noLeak (fun f => spaceRefs vm.as f + E f) vm.k
  leaves : LeavesOK aim vm.k vm.as

theorem VmOK.wf (h : VmOK aim E vm) : WF vm.as := h.leaves.wf

theorem VmOK.le (h : VmOK aim E vm) (hle : ∀ f, E' f ≤ E f) (hs : aim.noLeak → ∀ f, E f ≤ E' f) : VmOK aim E' vm :=
  ⟨h.kern.le (fun f => by have := hle f; omega) fun hx f => by have := hs hx f; omega, h.leaves⟩

theorem VmOK.congr (h : VmOK aim E vm) (hE : ∀ f, E' f = E f) : VmOK aim E' vm :=
  h.le (fun f => (hE f).le) fun _ f => (hE f).ge

theorem owns_le_spaceRefs (hc : UserCell 1 v) (ho : (as.ent 1 v).owns) : 1 ≤ spaceRefs as (as.ent 1 v).frame := by
  have h := own_le_spaceRefs as hc (as.ent 1 v).frame
  rwa [own_self ho] at h

theorem LeavesOK.spared {strict : Prop} {R : ℕ → ℕ} (h : LeavesOK aim k as) (hk : KernOK strict R k')
    (hs : Spares (spaceRefs as) k k') (hR : ∀ f, spaceRefs as f ≤ R f) : LeavesOK aim k' as := by
  refine { h with sole := fun ha v hc ho hw => hs.sole hk hR ?_ (h.sole ha v hc ho hw) }
  have := owns_le_spaceRefs hc ho
  omega

/-- The accounts after a call that moved references in the kernel only. -/
theorem VmOK.kernel (h : VmOK aim E vm) (hk : KernOK aim.noLeak (fun f => spaceRefs vm.as f + E' f) k')
    (hs : Spares (fun f => spaceRefs vm.as f + E' f) vm.k k') : VmOK aim E' ⟨k', vm.as⟩ :=
  ⟨hk, h.leaves.spared hk (hs.mono fun _ => Nat.le_add_right _ _) fun _ => Nat.le_add_right _ _⟩


/-! ## Moves -/

/-- What a walk that took frame `f` has in hand. -/
structure InHand (aim : Aim) (E : ℕ → ℕ) (f : ℕ) (vm vm' : Vm) : Prop where
  ok : VmOK aim (fun x => E x + one f x) vm'
  spares : Spares E vm.k vm'.k
  sole : vm'.k.pmm.refcount f = 1
  ne_zero : f ≠ 0
  lt : f < maxFrames

section

variable (h : VmOK aim E vm)
include h

theorem VmOK.alloc (ha : vm.k.alloc 0 = (some f, k')) (bytes : ℕ → UInt8) :
    InHand aim E f vm ⟨{ k' with mem := Function.update k'.mem f bytes }, vm.as⟩ := by
  have hf := h.kern.alloc ha
  have hin : In f 0 f := in_zero.2 rfl
  have hzero := hf.unheld f hin
  have hheld := h.kern.held f
  -- nobody referred to the frame whose bytes change
  have hsp : Spares (fun x => spaceRefs vm.as x + E x) vm.k { k' with mem := Function.update k'.mem f bytes } := by
    refine ⟨fun x hx => ?_, hf.spares.le⟩
    have hne : x ≠ f := by rintro rfl; omega
    exact (Function.update_of_ne hne _ _).trans (hf.spares.mem x hx)
  have hok : KernOK aim.noLeak (fun x => spaceRefs vm.as x + (E x + one f x))
      { k' with mem := Function.update k'.mem f bytes } :=
    KernOK.same (hf.ok.congr fun x => by rw [block_zero]; omega) rfl rfl rfl
  exact ⟨⟨hok, h.leaves.spared hok (hsp.mono fun _ => Nat.le_add_right _ _) fun _ => Nat.le_add_right _ _⟩,
    hsp.mono fun _ => Nat.le_add_left _ _, hf.sole f hin, hf.ne_zero, by have := hf.inRange; omega⟩

/-- **Writing an entry**: its reference comes from the hand, the old one's goes there. -/
theorem VmOK.put (E' : ℕ → ℕ) (hc : UserCell l key)
    (hE : ∀ x, E' x + own e x = E x + own (vm.as.ent l key) x) (hwf : WF (vm.as.put l key e))
    (hf : e.owns → e.frame ≠ 0 ∧ e.frame < maxFrames)
    (hdev : l = 1 → e.nofree → e.cow = false ∧ aim.device e.frame)
    (hsole : aim.apart → l = 1 → e.owns → e.writable → vm.k.pmm.refcount e.frame = 1) :
    VmOK aim E' ⟨vm.k, vm.as.put l key e⟩ := by
  have hput := spaceRefs_put vm.as hc e
  refine ⟨h.kern.congr fun x => by have := hput x; have := hE x; dsimp only; omega,
    hwf, fun x hx => ?_, fun v hv hn => ?_, fun ha v hv ho hw => ?_⟩
  · by_cases he : own e x = 0
    · exact h.leaves.frames x (by have := hput x; dsimp only at hx; omega)
    · obtain ⟨ho, rfl⟩ := owns_of_own he
      exact hf ho
  · by_cases hvk : 1 = l ∧ v = key
    · obtain ⟨rfl, rfl⟩ := hvk
      rw [put_self] at hn ⊢
      exact hdev rfl hn
    · dsimp only at hn ⊢
      rw [put_other hvk] at hn ⊢
      exact h.leaves.dev v hv hn
  · by_cases hvk : 1 = l ∧ v = key
    · obtain ⟨rfl, rfl⟩ := hvk
      rw [put_self] at ho hw ⊢
      exact hsole ha rfl ho hw
    · dsimp only at ho hw ⊢
      rw [put_other hvk] at ho hw ⊢
      exact h.leaves.sole ha v hv ho hw

theorem VmOK.frame (hc : UserCell 1 v) (ho : (vm.as.ent 1 v).owns) :
    (vm.as.ent 1 v).frame ≠ 0 ∧ (vm.as.ent 1 v).frame < maxFrames := by
  refine h.leaves.frames _ (lt_of_lt_of_le ?_ (own_le_spaceRefs _ hc _))
  rw [own_self ho]
  exact Nat.one_pos

theorem VmOK.putSame (hc : UserCell 1 v) (hwf : WF (vm.as.put 1 v e))
    (hown : ∀ x, own e x = own (vm.as.ent 1 v) x) (hdev : e.nofree → e.cow = false ∧ aim.device e.frame)
    (hsole : aim.apart → e.owns → e.writable → vm.k.pmm.refcount e.frame = 1) :
    VmOK aim E ⟨vm.k, vm.as.put 1 v e⟩ := by
  refine h.put _ hc (fun x => by rw [hown]) hwf (fun ho => ?_) (fun _ => hdev) fun ha _ => hsole ha
  have hold : own (vm.as.ent 1 v) e.frame ≠ 0 := by rw [← hown, own_self ho]; decide
  obtain ⟨ho', hfr⟩ := owns_of_own hold
  rw [← hfr]
  exact h.frame hc ho'

end

theorem VmOK.deferFree (h : VmOK aim (fun x => E x + one f x) vm) (owner : ℕ) (h0 : f ≠ 0)
    (hlt : f < maxFrames) (hroom : aim.noLeak → Room 1 vm.k) :
    VmOK aim E ⟨vm.k.deferFree ⟨f, owner, 0⟩, vm.as⟩ ∧ Spares E vm.k (vm.k.deferFree ⟨f, owner, 0⟩) := by
  have hk : KernOK aim.noLeak (fun x => spaceRefs vm.as x + E x + one f x) vm.k := h.kern.congr fun x => by omega
  obtain ⟨hok, hsp⟩ := hk.deferFree (d := ⟨f, owner, 0⟩) ⟨rfl, h0, hlt⟩ hroom
  exact ⟨h.kernel hok hsp, hsp.mono fun _ => Nat.le_add_left _ _⟩

theorem VmOK.free (h : VmOK aim (fun x => E x + one f x) vm) (h0 : f ≠ 0) (hlt : f < maxFrames) :
    VmOK aim E ⟨vm.k.free f 0, vm.as⟩ ∧ Spares E vm.k (vm.k.free f 0) := by
  have hk : KernOK aim.noLeak (fun x => spaceRefs vm.as x + E x + one f x) vm.k := h.kern.congr fun x => by omega
  obtain ⟨hok, hsp⟩ := hk.freeOne h0 hlt
  exact ⟨h.kernel hok hsp, hsp.mono fun _ => Nat.le_add_left _ _⟩

/-! ## The walks -/

/-- A walk that keeps the accounts and spares what `E` refers to. -/
structure Sound (aim : Aim) (E : ℕ → ℕ) (k : Kernel) (vm : Vm) : Prop where
  ok : VmOK aim E vm
  spares : Spares E k vm.k

theorem Sound.refl (h : VmOK aim E vm) : Sound aim E vm.k vm := ⟨h, .refl _ _⟩

theorem Sound.trans {vm'' : Vm} (h1 : Sound aim E k vm') (h2 : Sound aim E vm'.k vm'') :
    Sound aim E k vm'' := ⟨h2.ok, h1.spares.trans h2.spares⟩

theorem VmOK.idle (h : VmOK aim E vm) (hi : Idle vm.k k') : Sound aim E vm.k ⟨k', vm.as⟩ := by
  obtain ⟨hok, hsp⟩ := h.kern.idle hi
  exact ⟨h.kernel hok hsp, hsp.mono fun _ => Nat.le_add_left _ _⟩

theorem VmOK.tableStep (h : VmOK aim E vm) (hc : UserCell 1 v) (ht : TableStep v vm vm') : Sound aim E vm.k vm' := by
  have hwf := ht.wf h.wf
  cases ht with
  | failed ha => exact h.idle (.refused .refl ha)
  | fresh h2 h4 habs hup ha =>
    rename_i l f k'
    have hcell : UserCell l (keyOf l v) := userCell_keyOf hc.userPage hc.lt (by omega) h4
    have hh := h.alloc ha fun _ => 0
    refine ⟨hh.ok.put _ hcell (fun x => ?_) hwf (fun _ => ⟨hh.ne_zero, hh.lt⟩) (by omega) (by omega), hh.spares⟩
    rw [own_table, h.wf.absent hcell h2 habs, own_zero, add_zero]

theorem VmOK.tables (h : VmOK aim E vm) (hc : UserCell 1 v) (ht : Tables v vm vm') : Sound aim E vm.k vm' := by
  induction ht with
  | refl => exact .refl h
  | tail _ hs ih => exact ih.trans (ih.ok.tableStep hc hs)

/-- What `paging_map_into` is given: an entry whose reference, if it has one, is in hand. -/
structure Mappable (aim : Aim) (k : Kernel) (e : Pte) : Prop where
  frame : e.owns → e.frame ≠ 0 ∧ e.frame < maxFrames
  dev : e.nofree → e.cow = false ∧ aim.device e.frame
  sole : aim.apart → e.owns → e.writable → k.pmm.refcount e.frame = 1

/-- **`paging_map_into`**: the reference of the new leaf is in hand before, the one of the
old leaf afterwards; without a table for the page nothing happened. -/
theorem VmOK.mapInto (hc : UserCell 1 (vpnOf va))
    (h : VmOK aim (fun x => E x + own { e with frame := f, present := true } x) vm)
    (hm : Mappable aim vm.k { e with frame := f, present := true }) :
    Spares (fun x => E x + own { e with frame := f, present := true } x) vm.k (vm.mapInto va f e).2.k ∧
      VmOK aim (fun x => E x + if (vm.mapInto va f e).1 then own (vm.as.ent 1 (vpnOf va)) x
        else own { e with frame := f, present := true } x) (vm.mapInto va f e).2 := by
  obtain ⟨vm', ht, he | ⟨hpath, he⟩⟩ := mapInto_cases vm h.wf hc f e
  · rw [he]
    have hs := h.tables hc ht
    exact ⟨hs.spares, hs.ok⟩
  · rw [he]
    have hs := h.tables hc ht
    refine ⟨hs.spares, hs.ok.put _ hc (fun x => ?_) (hs.ok.wf.putLeaf (.inr ⟨rfl, hpath⟩)) hm.frame
      (fun _ => hm.dev) fun ha _ ho hw =>
        hs.spares.sole hs.ok.kern (fun _ => Nat.le_add_left _ _) ?_ (hm.sole ha ho hw)⟩
    · rw [ht.leaves, if_pos rfl]; omega
    · have := own_self ho; omega

/-- **`paging_unmap_from`**: the leaf's reference goes to the queue. It is lost when the
queue is not asked to take it. -/
theorem VmOK.unmapFrom (h : VmOK aim E vm) (hc : UserCell 1 (vpnOf va)) {free : Bool}
    (hfree : free → (vm.as.ent 1 (vpnOf va)).nofree = false)
    (hkeep : aim.noLeak → free = false → (vm.as.ent 1 (vpnOf va)).owns = false)
    (hroom : aim.noLeak → (vm.as.ent 1 (vpnOf va)).owns → Room 1 vm.k) :
    Sound aim E vm.k (vm.unmapFrom va free) := by
  rw [unmapFrom_eq h.wf hc]
  split
  swap
  · exact .refl h
  rename_i hfr
  have hput : VmOK aim (fun x => E x + own (vm.as.ent 1 (vpnOf va)) x) ⟨vm.k, vm.as.put 1 (vpnOf va) Pte.zero⟩ :=
    h.put _ hc (fun x => by rw [own_zero, add_zero]) (h.wf.putLeaf (.inl rfl)) nofun nofun nofun
  cases free with
  | false =>
    refine ⟨hput.le (fun x => Nat.le_add_right _ _) fun hx x => ?_, .refl _ _⟩
    rw [own_not (hkeep hx rfl)]
    exact le_rfl
  | true =>
    have ho : (vm.as.ent 1 (vpnOf va)).owns := by
      unfold Pte.owns; rw [hfr, hfree rfl]; rfl
    obtain ⟨h0, hlt⟩ := h.frame hc ho
    obtain ⟨hok, hsp⟩ := (hput.congr fun x => by rw [own_owns ho]).deferFree vm.as.pml4 h0 hlt fun hx => hroom hx ho
    exact ⟨hok, hsp⟩

theorem setprotPte_owns (hn : flags.nofree = false) (hf : e.hasFrame) : (Vm.setprotPte e flags).owns = e.owns := by
  unfold Pte.owns
  rw [setprotPte_hasFrame, hf, setprotPte_nofree hn]

/-- **`paging_setprot_from`**: a frame becomes writable when nobody else refers to it. -/
theorem VmOK.setprotFrom (h : VmOK aim E vm) (hc : UserCell 1 (vpnOf va)) (hn : flags.nofree = false)
    (hcow : flags.cow = false)
    (hsole : aim.apart → flags.writable → (vm.as.ent 1 (vpnOf va)).owns →
      (vm.as.ent 1 (vpnOf va)).cow = false → vm.k.pmm.refcount (vm.as.ent 1 (vpnOf va)).frame = 1) :
    Sound aim E vm.k (vm.setprotFrom va flags) := by
  rw [setprotFrom_eq h.wf hc]
  split
  swap
  · exact .refl h
  rename_i hfr
  refine ⟨h.putSame hc (h.wf.putLeaf (.inr ⟨setprotPte_hasFrame _ _, h.wf.path hc hfr⟩)) (fun x => ?_)
    (fun hd => ?_) fun ha ho hw => ?_, .refl _ _⟩
  · unfold own; rw [setprotPte_owns hn hfr, setprotPte_frame]
  · rw [setprotPte_cow hcow, setprotPte_frame]
    exact h.leaves.dev _ hc (setprotPte_nofree hn _ ▸ hd)
  · rw [setprotPte_frame]
    rw [setprotPte_owns hn hfr] at ho
    unfold Vm.setprotPte at hw
    split at hw
    · simp only [Bool.and_eq_true, Bool.not_eq_true'] at hw
      exact hsole ha hw.1 ho hw.2
    · cases hw

/-- The leaf after a copy. -/
def Pte.copied (e : Pte) (f : ℕ) : Pte := { e with frame := f, cow := false, writable := true }

/-- **`paging_handle_cow_fault`**: the page is written in place by its last owner, and
copied otherwise. -/
theorem VmOK.cowFault (h : VmOK aim E vm) (hc : UserCell 1 (vpnOf va)) : Sound aim E vm.k (vm.handleCowFault va).2 := by
  have hend := handleCowFault_cases vm h.wf hc
  generalize vm.handleCowFault va = r at hend
  cases hend with
  | refused => exact .refl h
  | noFrame ha => exact h.idle (.refused .refl ha)
  | sole hcow hr =>
    have hfr : (vm.as.ent 1 (vpnOf va)).hasFrame := by unfold Pte.hasFrame; rw [hcow.present]; rfl
    refine ⟨h.putSame hc (h.wf.putLeaf (.inr ⟨hfr, h.wf.path hc hfr⟩)) (fun x => rfl) (fun hn => ?_)
      fun _ _ _ => hr, .refl _ _⟩
    exact ⟨rfl, (h.leaves.dev _ hc hn).2⟩
  | copied hcow hr ha =>
    rename_i f k'
    have hfr : (vm.as.ent 1 (vpnOf va)).hasFrame := by unfold Pte.hasFrame; rw [hcow.present]; rfl
    have hn : (vm.as.ent 1 (vpnOf va)).nofree = false := by
      by_contra hn
      have := (h.leaves.dev _ hc (Bool.not_eq_false _ ▸ hn)).1
      rw [hcow.cow] at this
      cases this
    have ho : (vm.as.ent 1 (vpnOf va)).owns := by unfold Pte.owns; rw [hfr, hn]; rfl
    have hh := h.alloc ha (k'.mem (vm.as.ent 1 (vpnOf va)).frame)
    obtain ⟨h0, hlt⟩ := h.frame hc ho
    have hnew : ∀ x, own ((vm.as.ent 1 (vpnOf va)).copied f) x = one f x := own_owns ho
    have hput := hh.ok.put (fun x => E x + one (vm.as.ent 1 (vpnOf va)).frame x) hc
      (e := (vm.as.ent 1 (vpnOf va)).copied f) (fun x => by rw [hnew, own_owns ho]; omega)
      (h.wf.putLeaf (.inr ⟨hfr, h.wf.path hc hfr⟩)) (fun _ => ⟨hh.ne_zero, hh.lt⟩)
      (fun _ hd => by change (vm.as.ent 1 (vpnOf va)).nofree = true at hd; rw [hn] at hd; cases hd)
      fun _ _ _ _ => hh.sole
    obtain ⟨hok, hsp⟩ := hput.free h0 hlt
    exact ⟨hok, hh.spares.trans hsp⟩

end NeoOS
