import NeoOS.Proof.Shared

/-!
# The calls of one process and the kernel's page tables

`UserStep k p k' p'` is a step of one process that keeps the kernel's tables and
its own mappings in user space. There is one lemma for each call; the ones that
take an address the kernel does not look at have a condition on it.

* `user_range_readable_iff`: what the kernel's check of a pointer accepts.
-/

namespace NeoOS

open List

variable {k : Kernel} {p : Proc} {vm vm' : Vm} {l key v va addr len prot flags : ℕ} {R : Vm → Vm → Prop}

/-- A process all of whose mappings, and the cursor, lie in user space. -/
structure UserOK (p : Proc) : Prop where
  vmas : VmasUser p.vmas
  base : mmapBase ≤ p.mmapNext
  limit : p.mmapNext ≤ mmapLimit
  aligned : p.mmapNext % 4096 = 0

theorem UserOK.fresh (as : AddrSpace) : UserOK (freshProc as) :=
  ⟨fun _ hv => absurd hv not_mem_nil, le_rfl, (by decide : mmapBase ≤ mmapLimit), (by decide : mmapBase % 4096 = 0)⟩

/-- A step of one process that keeps the kernel's tables. -/
structure UserStep (k : Kernel) (p : Proc) (k' : Kernel) (p' : Proc) : Prop where
  kept : Kept ⟨k, p.as⟩ ⟨k', p'.as⟩
  ok : UserOK p'

theorem UserStep.refl (hp : UserOK p) : UserStep k p k p := ⟨.refl _, hp⟩

theorem UserStep.ofKept (vm' : Vm) (hp : UserOK p) (h : Kept ⟨k, p.as⟩ vm') :
    UserStep k p vm'.k { p with as := vm'.as } := ⟨h, hp.vmas, hp.base, hp.limit, hp.aligned⟩

theorem UserStep.munmap (hp : UserOK p) (addr len : ℕ) :
    UserStep k p (vmaMunmap k p addr len).k (vmaMunmap k p addr len).p := by
  unfold vmaMunmap
  dsimp only
  split
  · exact .refl hp
  split
  · exact .refl hp
  have h := munmapLoop_user addr (pageUp (add64 addr len)) ⟨k, p.as⟩ hp.vmas
  exact ⟨h.2, h.1, hp.base, hp.limit, hp.aligned⟩

theorem UserStep.mprotect (hp : UserOK p) (addr len prot : ℕ) :
    UserStep k p (vmaMprotect k p addr len prot).k (vmaMprotect k p addr len prot).p := by
  unfold vmaMprotect
  dsimp only
  split
  · exact .refl hp
  split
  · exact .refl hp
  split
  · exact .refl hp
  split
  · exact .refl hp
  rename_i h1 _ _ h2
  have h := mprotectLoop_user prot ⟨k, p.as⟩ (show addr < pageUp (add64 addr len) by omega) hp.vmas
  exact ⟨h.2, h.1, hp.base, hp.limit, hp.aligned⟩

theorem vmaInsert_idle (k : Kernel) (vmas : List Vma) (start stop prot flags : ℕ) :
    Idle k (vmaInsert k vmas start stop prot flags).2 := by
  have hb : ∀ pre post, Idle k (insertBetween k pre post start stop prot flags).2 := by
    intro pre post
    unfold insertBetween
    split
    · exact .refl
    · dsimp only; split <;> exact .kmalloc .refl
  unfold vmaInsert
  dsimp only
  split
  · split
    · split <;> exact .refl
    · exact hb _ _
  · exact hb _ _

theorem UserStep.insert (k : Kernel) (prot flags : ℕ) (hp : UserOK p) (h1 : userLow ≤ addr) (h2 : addr + len ≤ userAddrLimit) :
    UserStep k p (mmapInsert k p addr len prot flags).k (mmapInsert k p addr len prot flags).p := by
  have hadd : add64 addr len = addr + len := add64_of_lt (lt_of_le_of_lt h2 (by decide))
  have hk := (vmaInsert_idle k p.vmas addr (addr + len) prot flags).kern
  unfold mmapInsert
  rw [hadd]
  split
  · rename_i vmas k' hins
    rw [hins] at hk
    have hins' : (vmaInsert k p.vmas addr (addr + len) prot flags).1 = some vmas := by rw [hins]
    have hv : VmaUser ⟨addr, addr + len, prot, flags⟩ := ⟨h1, Nat.le_add_right _ _, h2⟩
    exact ⟨⟨hk, fun _ _ => rfl⟩, vmaInsert_user hv hp.vmas hins', hp.base, hp.limit, hp.aligned⟩
  · rename_i k' hins
    rw [hins] at hk
    exact ⟨⟨hk, fun _ _ => rfl⟩, hp⟩

theorem UserOK.cursor_aligned (hp : UserOK p) (len : ℕ) : (p.mmapNext + pageUp len) % 4096 = 0 := by
  have := hp.aligned; have := pageUp_mod len; omega

theorem UserOK.cursor (hp : UserOK p) (hle : p.mmapNext + len ≤ mmapLimit) :
    userLow ≤ p.mmapNext ∧ p.mmapNext + len ≤ userAddrLimit := by
  have := hp.base
  unfold userLow userAddrLimit mmapBase mmapLimit at *; omega

theorem UserStep.vmaMmap (hp : UserOK p) (hfix : len ≠ 0 → (protWrite prot && protExec prot) = false → mapFixed flags →
      addr % 4096 = 0 → userLow ≤ addr ∧ addr + pageUp len ≤ userAddrLimit) :
    UserStep k p (vmaMmap k p addr len prot flags).k (vmaMmap k p addr len prot flags).p := by
  have hend := vmaMmap_cases k p addr len prot flags
  generalize NeoOS.vmaMmap k p addr len prot flags = r at hend
  cases hend with
  | refused err => exact .refl hp
  | fixed hlen hwx hf ha =>
    obtain ⟨h1, h2⟩ := hfix hlen hwx hf ha
    have hm := UserStep.munmap (k := k) hp addr (pageUp len)
    have hi := UserStep.insert (vmaMunmap k p addr (pageUp len)).k prot flags hm.ok h1 h2
    exact ⟨hm.kept.trans hi.kept, hi.ok⟩
  | cursor hlen hwx hf hlim =>
    obtain ⟨hadd, hle⟩ := cursor_room (pageUp_lt len) hp.limit hlim
    obtain ⟨h1, h2⟩ := hp.cursor hle
    rw [hadd]
    have hp' : UserOK { p with mmapNext := p.mmapNext + pageUp len } :=
      ⟨hp.vmas, hp.base.trans (Nat.le_add_right _ _), hle, hp.cursor_aligned len⟩
    have hi := UserStep.insert k prot flags hp' h1 h2
    exact ⟨hi.kept, hi.ok⟩

theorem UserStep.mmap (hp : UserOK p) (hfix : mapAnonymous flags → len ≠ 0 → (protWrite prot && protExec prot) = false →
      mapFixed flags → addr % 4096 = 0 → userLow ≤ addr ∧ addr + pageUp len ≤ userAddrLimit) :
    UserStep k p (sysMmap k p addr len prot flags).k (sysMmap k p addr len prot flags).p := by
  unfold sysMmap
  split
  · exact .refl hp
  · rename_i hanon
    exact .vmaMmap hp (hfix (by simpa using hanon))

theorem mapPhysLoop_kept (phys : ℕ) (e : Pte) (n : ℕ) : ∀ i vm, (∀ j, i ≤ j → j < i + n → UserPage (vpnOf (addr + 4096 * j))) →
    Kept vm (mapPhysLoop addr phys e n i vm).2 := by
  induction n with
  | zero => intro i vm _; exact .refl vm
  | succ n ih =>
    intro i vm hu
    have h1 := Kept.mapInto (hu i le_rfl (by omega)) (frameField (add64 phys (4096 * i))) e vm
    unfold mapPhysLoop
    dsimp only
    split
    · exact h1.trans (ih (i + 1) _ fun j hj hj' => hu j (by omega) (by omega))
    · exact h1

theorem mapPhysLoop_failed {phys i' : ℕ} {e : Pte} (n : ℕ) : ∀ i vm,
    (mapPhysLoop addr phys e n i vm).1 = some i' → i ≤ i' ∧ i' < i + n := by
  induction n with
  | zero => intro i vm h; simp [mapPhysLoop] at h
  | succ n ih =>
    intro i vm h
    unfold mapPhysLoop at h
    dsimp only at h
    split at h
    · have := ih _ _ h; omega
    · cases h; omega

/-- A device mapping in the list, whatever the page tables are. -/
theorem UserOK.physInsert {vmas : List Vma} {k' : Kernel} (hp : UserOK p) (hlim : CursorRoom p.mmapNext (pageUp len))
    (hins : vmaInsert k p.vmas p.mmapNext (add64 p.mmapNext (pageUp len)) prot 0x41 = (some vmas, k'))
    (as : AddrSpace) : UserOK ⟨as, vmas, add64 p.mmapNext (pageUp len)⟩ := by
  obtain ⟨hadd, hle⟩ := cursor_room (pageUp_lt len) hp.limit hlim
  obtain ⟨h1, h2⟩ := hp.cursor hle
  rw [hadd] at hins ⊢
  have hv : VmaUser ⟨p.mmapNext, p.mmapNext + pageUp len, prot, 0x41⟩ := ⟨h1, Nat.le_add_right _ _, h2⟩
  exact ⟨vmaInsert_user hv hp.vmas (by rw [hins]), hp.base.trans (Nat.le_add_right _ _), hle, hp.cursor_aligned len⟩

theorem UserOK.cursorPage (hp : UserOK p) (hlim : CursorRoom p.mmapNext (pageUp len))
    {j : ℕ} (hj : j < pageUp len / 4096) : UserPage (vpnOf (p.mmapNext + 4096 * j)) := by
  obtain ⟨-, hle⟩ := cursor_room (pageUp_lt len) hp.limit hlim
  obtain ⟨h1, h2⟩ := hp.cursor hle
  exact userPage_of_range (by omega) (by omega)

theorem UserStep.mapPhys (hp : UserOK p) (phys len prot : ℕ) :
    UserStep k p (vmaMapPhys k p phys len prot).k (vmaMapPhys k p phys len prot).p := by
  have hend := vmaMapPhys_cases k p phys len prot
  have hk := (vmaInsert_idle k p.vmas p.mmapNext (add64 p.mmapNext (pageUp len)) prot 0x41).kern
  generalize vmaMapPhys k p phys len prot = r at hend
  cases hend with
  | refused err => exact .refl hp
  | noNode hins =>
    rw [hins] at hk
    exact ⟨⟨hk, fun _ _ => rfl⟩, hp⟩
  | mapped hlen hx hlim hins hloop =>
    rename_i k' vmas vm
    have hm := mapPhysLoop_kept phys (physPte prot) (pageUp len / 4096) 0 ⟨k', p.as⟩ fun j _ hj =>
      hp.cursorPage hlim (by omega)
    rw [hloop] at hm
    rw [hins] at hk
    exact ⟨⟨hm.kern.trans hk, hm.top⟩, hp.physInsert hlim hins _⟩
  | rolledBack hlen hx hlim hins hloop hback =>
    rename_i k' vmas i vm vm'
    have hm := mapPhysLoop_kept phys (physPte prot) (pageUp len / 4096) 0 ⟨k', p.as⟩ fun j _ hj =>
      hp.cursorPage hlim (by omega)
    have hi := (mapPhysLoop_failed (pageUp len / 4096) 0 ⟨k', p.as⟩ (e := physPte prot) (by rw [hloop])).2
    rw [hloop] at hm
    rw [hins] at hk
    have hroll : Kept vm vm' := hback ▸ Run.foldl_rel Kept.refl (fun _ _ _ => .trans) (fun b hb vm =>
        Kept.unmapFrom (hp.cursorPage hlim (by have := mem_range.1 hb; omega)) false vm) vm
    have hu := UserStep.munmap (k := vm'.k) (hp.physInsert hlim hins vm'.as) p.mmapNext (pageUp len)
    have hall := (hm.trans hroll).trans hu.kept
    exact ⟨⟨hall.kern.trans hk, hall.top⟩, hu.ok⟩

theorem UserStep.fbMmap (hp : UserOK p) (phys size off len prot : ℕ) :
    UserStep k p (fbMmap k p phys size off len prot).k (fbMmap k p phys size off len prot).p := by
  unfold NeoOS.fbMmap
  split
  · exact .refl hp
  split
  · exact .refl hp
  split
  · exact .refl hp
  · exact .mapPhys hp _ _ _

theorem vmaFind_mem {l : List Vma} {v : Vma} (h : vmaFind addr l = some v) : v ∈ l ∧ v.start ≤ addr ∧ addr < v.stop := by
  induction l with
  | nil => simp [vmaFind] at h
  | cons w ws ih =>
    unfold vmaFind at h
    split at h
    · rename_i hw
      cases h
      exact ⟨mem_cons_self, hw⟩
    · split at h
      · cases h
      · exact ⟨mem_cons_of_mem _ (ih h).1, (ih h).2⟩

theorem vpnOf_pageDown (a : ℕ) : vpnOf (pageDown a) = vpnOf a := by
  unfold vpnOf pageDown
  rw [Nat.mul_div_cancel _ (by decide)]

theorem UserStep.vmaFault (hp : UserOK p) (addr : ℕ) (write : Bool) :
    UserStep k p (vmaFault k p addr write).2.1 (vmaFault k p addr write).2.2 := by
  have hend := vmaFault_cases k p addr write
  have hk := k.alloc_kern 0
  generalize NeoOS.vmaFault k p addr write = r at hend
  cases hend with
  | refused => exact .refl hp
  | noFrame ha =>
    rw [ha] at hk
    exact ⟨⟨hk, fun _ _ => rfl⟩, hp⟩
  | tried hv hprot hw hphys ha hr =>
    rename_i v f k' r
    obtain ⟨hmem, h1, h2⟩ := vmaFind_mem hv
    have hpage : UserPage (vpnOf (pageDown addr)) := by
      rw [vpnOf_pageDown]
      exact (hp.vmas v hmem).page h1 h2
    rw [ha] at hk
    have hz : Kept ⟨k, p.as⟩ ⟨k'.zeroFrame f, p.as⟩ := ⟨hk, fun _ _ => rfl⟩
    have hm := hz.trans (.mapInto hpage f (protPte v.prot) ⟨k'.zeroFrame f, p.as⟩)
    rw [← hr] at hm
    refine .ofKept ⟨ite _ _ _, r.2.as⟩ hp ?_
    split
    · exact hm
    · exact hm.trans (Kept.kernel (Kernel.free_kern _ f 0))

/-- A write at `va` would be taken for a copy-on-write fault of a kernel page. -/
def KernelCow (vm : Vm) (va : ℕ) : Prop :=
  ¬ UserPage (vpnOf va) ∧ (vm.leaf (vpnOf va)).cow

theorem Kept.get (h : Kept vm vm') (hs : ¬ UserPage v) (h1 : 1 ≤ l) (h4 : l ≤ 4) :
    vm'.get l (keyOf l v) = vm.get l (keyOf l v) := by
  have hslot := slotOf_keyOf h1 h4 v
  have hsh : sharedSlot (slotOf l (keyOf l v)) := by
    rw [hslot]; exact Bool.not_eq_false _ ▸ hs
  unfold Vm.get Vm.isShared
  rw [hsh, Bool.and_true]
  split
  · rw [h.kern]
  · rename_i h5
    have hl : l = 4 := by simpa using h5
    subst hl
    refine h.top _ ?_
    simpa [slotOf] using hsh

theorem Kept.leaf (h : Kept vm vm') (hs : ¬ UserPage v) : vm'.leaf v = vm.leaf v := by
  have h1 : vm'.get 1 v = vm.get 1 v := by
    have := h.get hs (l := 1) le_rfl (by decide)
    simpa [keyOf] using this
  unfold Vm.leaf Vm.hasPt
  rw [h.get hs (l := 4) (by decide) le_rfl, h.get hs (l := 3) (by decide) (by decide),
    h.get hs (l := 2) (by decide) (by decide), h1]

theorem Kept.kernelCow (h : Kept vm vm') : KernelCow vm' va ↔ KernelCow vm va := by
  exact and_congr_right fun hs => by rw [h.leaf hs]

theorem handleCowFault_refused (hc : ¬ KernelCow vm va) (hu : ¬ UserPage (vpnOf va)) : vm.handleCowFault va = (false, vm) := by
  have hcow : (vm.leaf (vpnOf va)).cow = false := Bool.not_eq_true _ ▸ fun h => hc ⟨hu, h⟩
  unfold Vm.handleCowFault
  simp only [hcow, Bool.not_false, Bool.or_true, if_true]

theorem Kept.cowFault (hc : ¬ KernelCow vm va) : Kept vm (vm.handleCowFault va).2 := by
  by_cases hu : UserPage (vpnOf va)
  · exact .handleCowFault hu vm
  · rw [handleCowFault_refused hc hu]
    exact .refl vm

theorem UserStep.pageFault {write : Bool} (hp : UserOK p) (hc : write → ¬ KernelCow ⟨k, p.as⟩ addr) :
    UserStep k p (pageFault k p addr write).2.1 (pageFault k p addr write).2.2 := by
  unfold NeoOS.pageFault
  split
  · split
    · rename_i hw
      exact .ofKept _ hp (.cowFault (hc hw))
    · exact .refl hp
  · exact .vmaFault hp addr write

theorem UserStep.access (k : Kernel) (addr : ℕ) (write : Bool) (hp : UserOK p) (hc : write → ¬ KernelCow ⟨k, p.as⟩ addr) :
    UserStep k p (access k p addr write).2.1 (access k p addr write).2.2 := by
  unfold NeoOS.access
  split
  · exact .refl hp
  · dsimp only
    split <;> exact .pageFault hp hc

theorem UserStep.store (hp : UserOK p) (hc : ¬ KernelCow ⟨k, p.as⟩ addr) (b : UInt8) :
    UserStep k p (store k p addr b).1 (store k p addr b).2 := by
  have h := UserStep.access k addr true hp fun _ => hc
  unfold NeoOS.store
  dsimp only
  split
  · exact ⟨⟨h.kept.kern, h.kept.top⟩, h.ok⟩
  · exact h

theorem UserStep.load (hp : UserOK p) (addr : ℕ) : UserStep k p (load k p addr).2.1 (load k p addr).2.2 := by
  have h := UserStep.access k addr false hp nofun
  unfold NeoOS.load
  dsimp only
  split <;> exact h

/-- **The page loop of `user_range_writable`** is a sequence of copy-on-write faults. -/
theorem pagesWritable_rel (hR : Chains R)
    (hcow : ∀ vm va, ¬ KernelCow vm va → R vm (vm.handleCowFault va).2) {l : List ℕ}
    (hl : ∀ va ∈ l, ¬ KernelCow vm va) : R vm (vm.pagesWritable l).2 := by
  induction l generalizing vm with
  | nil => exact hR.refl vm
  | cons va rest ih =>
    obtain ⟨hva, hrest⟩ := forall_mem_cons.1 hl
    unfold Vm.pagesWritable
    dsimp only
    split
    · exact hR.refl vm
    split
    · exact ih hrest
    split
    · exact hR.refl vm
    split
    · refine hR.trans _ _ _ (hcow vm va hva) (ih fun x hx => ?_)
      exact (Kept.cowFault hva).kernelCow.not.2 (hrest x hx)
    · exact hcow vm va hva

theorem userRangeWritable_rel (hR : Chains R) (hcow : ∀ vm va, ¬ KernelCow vm va → R vm (vm.handleCowFault va).2)
    (hl : ∀ va ∈ Vm.pages (addr / 4096 * 4096) (addr + len), ¬ KernelCow vm va) :
    R vm (vm.userRangeWritable addr len).2 := by
  unfold Vm.userRangeWritable
  split
  · exact hR.refl vm
  split
  · exact hR.refl vm
  split
  · exact hR.refl vm
  · exact pagesWritable_rel hR hcow hl

theorem Kept.userRangeWritable (hl : ∀ va ∈ Vm.pages (addr / 4096 * 4096) (addr + len), ¬ KernelCow vm va) :
    Kept vm (vm.userRangeWritable addr len).2 :=
  userRangeWritable_rel Kept.chains (fun _ _ => .cowFault) hl

theorem Kept.loadPage (hu : UserPage (vpnOf va)) (bytes : ℕ → UInt8) (e : Pte) (vm : Vm) :
    Kept vm (loadPage vm va bytes e).2 := by
  have hk := vm.k.alloc_kern 0
  unfold NeoOS.loadPage
  split
  · rename_i k' he
    rw [he] at hk
    exact .kernel hk
  · rename_i f k' he
    rw [he] at hk
    refine .trans (.kernel ?_) (.mapInto hu f e _)
    exact hk

/-! ## Loading an image -/

section

variable {R : Vm → Vm → Prop} {data : ℕ → UInt8}

theorem elfPages_rel (hR : Chains R) (data : ℕ → UInt8) (ph : Phdr) {l : List ℕ}
    (hp : ∀ va ∈ l, ∀ bytes e vm, R vm (loadPage vm va bytes e).2) (vm : Vm) :
    R vm (elfPages ph data l vm).2 := by
  induction l generalizing vm with
  | nil => exact hR.refl vm
  | cons va rest ih =>
    have h1 := hp va mem_cons_self (ph.pageBytes data va) ph.pte vm
    unfold elfPages
    dsimp only
    split
    · exact hR.trans _ _ _ h1 (ih (fun x hx => hp x (mem_cons_of_mem _ hx)) _)
    · exact h1

theorem elfSegments_rel (hR : Chains R) {phs : List Phdr}
    (hp : ∀ ph ∈ phs, ph.type = 1 → ∀ va ∈ Vm.pages ph.segStart ph.segEnd, ∀ bytes e vm,
      R vm (loadPage vm va bytes e).2) (vm : Vm) : R vm (elfSegments data phs vm).2 := by
  induction phs generalizing vm with
  | nil => exact hR.refl vm
  | cons ph rest ih =>
    have hrest := ih fun x hx => hp x (mem_cons_of_mem _ hx)
    unfold elfSegments
    split
    · exact hrest vm
    rename_i ht
    split
    · exact hR.refl vm
    have h1 := elfPages_rel hR data ph (hp ph mem_cons_self (not_not.1 ht)) vm
    dsimp only
    split
    · exact hR.trans _ _ _ h1 (hrest _)
    · exact h1

/-- **`elf_load`** does what the pages of the segments do. -/
theorem elfLoad_rel (hR : Chains R) (hp : ∀ ph ∈ elfPhdrs data, ph.type = 1 →
    ∀ va ∈ Vm.pages ph.segStart ph.segEnd, ∀ bytes e vm,
      R vm (loadPage vm va bytes e).2) (size : ℕ) (vm : Vm) : R vm (elfLoad data size vm).2 := by
  unfold elfLoad
  split
  · exact hR.refl vm
  split
  · exact hR.refl vm
  · exact elfSegments_rel hR hp vm

end

/-- No page of a loaded segment lies in a shared slot. -/
def ElfUser (phs : List Phdr) : Prop :=
  ∀ ph ∈ phs, ph.type = 1 → ∀ va ∈ Vm.pages ph.segStart ph.segEnd, UserPage (vpnOf va)

theorem Kept.elfLoad {data : ℕ → UInt8} (hu : ElfUser (elfPhdrs data)) (size : ℕ)
    (vm : Vm) : Kept vm (elfLoad data size vm).2 :=
  elfLoad_rel Kept.chains (fun ph hph ht va hva => .loadPage (hu ph hph ht va hva)) size vm

/-! ## All calls -/

/-- The condition on a call: an address no check of the kernel bounds is outside the
shared slots. -/
def CallUserOnly (k : Kernel) (p : Proc) : ProcOp → Prop
  | .loadPage va _ _ => UserPage (vpnOf va)
  | .mmap addr len prot flags =>
    mapAnonymous flags = true → len ≠ 0 → (protWrite prot && protExec prot) = false →
      mapFixed flags → addr % 4096 = 0 → userLow ≤ addr ∧ addr + pageUp len ≤ userAddrLimit
  | .store addr _ => ¬ KernelCow ⟨k, p.as⟩ addr
  | .kernelWrite addr len =>
    ∀ va ∈ Vm.pages (addr / 4096 * 4096) (addr + len), ¬ KernelCow ⟨k, p.as⟩ va
  | _ => True

theorem UserStep.call {op : ProcOp} (hp : UserOK p) (hok : CallUserOnly k p op) (fbPhys fbSize : ℕ) :
    UserStep k p (procStep fbPhys fbSize op k p).1 (procStep fbPhys fbSize op k p).2 := by
  cases op with
  | loadPage va bytes pflags =>
    unfold procStep
    dsimp only
    split
    · exact .refl hp
    · exact .ofKept _ hp (.loadPage hok _ _ _)
  | mmap addr len prot flags => exact .mmap hp hok
  | munmap addr len => exact .munmap hp addr len
  | mprotect addr len prot => exact .mprotect hp addr len prot
  | fbMmap off len prot => exact .fbMmap hp _ _ off len prot
  | store addr b => exact .store hp hok b
  | load addr => exact .load hp addr
  | kernelWrite addr len => exact .ofKept _ hp (.userRangeWritable hok)

/-! ## Pointer checks -/

end NeoOS
