import NeoOS.Proof.Perm

/-!
# The right to write, call by call

`PermInv p` is what is kept of one process: its mappings are in order and in user
space, its entries form a tree, and leaves and mappings agree. `CallPerm` is the
condition on a call; `PermInv.call` puts the calls together.
-/

namespace NeoOS

variable {k : Kernel} {p : Proc} {vm vm' : Vm} {l : List Vma} {e : Pte} {w v : Vma}
  {addr len prot flags start stop b x va f lo hi phys : ℕ} {as : AddrSpace}

/-- The entries of a process form a tree that agrees with its mappings. -/
structure Agrees (p : Proc) : Prop where
  wf : WF p.as
  perm : PermOK p.as p.vmas

/-- The invariant of one process. -/
structure PermInv (p : Proc) : Prop where
  user : UserOK p
  maps : MapsOK p
  agrees : Agrees p

theorem PermInv.wf (h : PermInv p) : WF p.as := h.agrees.wf

theorem PermInv.perm (h : PermInv p) : PermOK p.as p.vmas := h.agrees.perm

/-- Page `x` of the range lies in no mapping and has no frame, or lies in one. -/
def Vacant (p : Proc) (start stop : ℕ) : Prop := ∀ x, UserCell 1 x → InRange start stop x →
  (∀ w ∈ p.vmas, ¬ InRange w.start w.stop x) → (p.as.ent 1 x).hasFrame = false

/-! ## `munmap`, `mprotect`, `mmap` -/

/-- What `munmap` does to one process. -/
structure Unmapped (p p' : Proc) : Prop where
  agrees : Agrees p'
  leaf : ∀ x, UserCell 1 x → p'.as.ent 1 x = p.as.ent 1 x ∨ p'.as.ent 1 x = Pte.zero

theorem Unmapped.munmap (hu : UserOK p) (h : Agrees p) (addr len : ℕ) : Unmapped p (vmaMunmap k p addr len).p := by
  have hrefl : Unmapped p p := ⟨h, fun _ _ => .inl rfl⟩
  unfold vmaMunmap
  dsimp only
  split
  · exact hrefl
  split
  · exact hrefl
  have hc : Cleared ⟨k, p.as⟩ (munmapLoop addr (pageUp (add64 addr len)) p.vmas ⟨k, p.as⟩).2.2 := munmapLoop_cleared hu.vmas
  refine ⟨⟨(hc h.wf).1, ?_⟩, (hc h.wf).2⟩
  exact (h.perm.weaken fun x hx => hc.weaker h.wf hx).pieces fun w hw => munmapLoop_pieces hw

theorem PermInv.munmap (h : PermInv p) (addr len : ℕ) : PermInv (vmaMunmap k p addr len).p :=
  ⟨(UserStep.munmap (k := k) h.user addr len).ok, h.maps.munmap addr len, (Unmapped.munmap h.user h.agrees addr len).agrees⟩

theorem PermInv.mprotect (h : PermInv p) (hcow : ∀ w ∈ p.vmas, NoCowLeft p.as prot addr (pageUp (add64 addr len)) w) :
    PermInv (vmaMprotect k p addr len prot).p := by
  refine ⟨(UserStep.mprotect (k := k) h.user addr len prot).ok, h.maps.mprotect addr len prot, ?_⟩
  unfold vmaMprotect
  dsimp only
  split
  · exact h.agrees
  split
  · exact h.agrees
  split
  · exact h.agrees
  split
  · exact h.agrees
  rename_i h1 _ hwx h2
  have hok := mprotectLoop_ok ⟨k, p.as⟩ (by omega) (pageUp_mod _) (by omega)
    h.maps.vmas h.user.vmas h.wf h.perm (by simpa using hwx) hcow
  exact ⟨hok.wf, hok.perm⟩

/-- The insertion at the end of `mmap`, over pages that are blank. -/
theorem Agrees.mmapInsert (h : Agrees p) (hlt : addr + len < u64) (hwx : (protWrite prot && protExec prot) = false)
    (hblank : ∀ x, UserCell 1 x → InRange addr (addr + len) x → p.as.ent 1 x = Pte.zero)
    (hok : MapsOK (mmapInsert k p addr len prot flags).p) : Agrees (mmapInsert k p addr len prot flags).p := by
  unfold NeoOS.mmapInsert at hok ⊢
  rw [add64_of_lt hlt] at hok ⊢
  rcases hins : vmaInsert k p.vmas addr (addr + len) prot flags with ⟨_ | l', k'⟩
  · exact h
  · rw [hins] at hok
    refine ⟨h.wf, h.perm.insert (by rw [hins]) hwx (fun x hc hr hw => ?_) hok.vmas⟩
    rw [hblank x hc hr] at hw
    exact absurd hw writeRight_zero

theorem munmap_blank (h : PermInv p) (ha : addr % 4096 = 0) (hl : len % 4096 = 0)
    (hfit : FixedFits k p addr len) (hvac : Vacant p addr (addr + len)) (hc : UserCell 1 x)
    (hr : InRange addr (addr + len) x) : (vmaMunmap k p addr len).p.as.ent 1 x = Pte.zero := by
  obtain ⟨h0, hlt, hk⟩ := hfit
  have hstop : pageUp (add64 addr len) = addr + len := by
    rw [add64_of_lt hlt, pageUp_of_aligned (by omega) hlt]
  by_cases hcov : ∃ w ∈ p.vmas, InRange w.start w.stop x
  · obtain ⟨w, hw, hrw⟩ := hcov
    unfold vmaMunmap
    simp only [hstop, if_neg (show ¬ addr % 4096 ≠ 0 by omega), if_neg (show ¬ addr + len ≤ addr by omega)]
    exact munmapLoop_clears ha h.maps.vmas h.user.vmas h.wf (munmapLoop_ok h.maps.vmas hk) w hw x hc hrw hr
  · have hnone := hvac x hc hr fun w hw hrw => hcov ⟨w, hw, hrw⟩
    have hz := h.wf.blank x hc hnone
    rcases (Unmapped.munmap (k := k) h.user h.agrees addr len).leaf x hc with he | he
    · rw [he, hz]
    · exact he

/-- The pages of a free cursor range lie in no mapping. -/
theorem cursor_not_inRange (hfree : ∀ v ∈ p.vmas, v.stop ≤ start ∨ stop ≤ v.start) (hw : w ∈ p.vmas)
    (hr : InRange start stop x) : ¬ InRange w.start w.stop x := by
  have := hfree w hw
  rintro ⟨h1, h2⟩
  obtain ⟨h3, h4⟩ := hr
  omega

/-- Where `mmap` puts its mapping. -/
def mmapTarget (p : Proc) (addr flags : ℕ) : ℕ := if mapFixed flags then addr else p.mmapNext

theorem PermInv.mmap (h : PermInv p)
    (hu : UserStep k p (vmaMmap k p addr len prot flags).k (vmaMmap k p addr len prot flags).p)
    (hpl : Placed (k, p) (.mmap addr len prot flags))
    (hvac : Vacant p (mmapTarget p addr flags) (mmapTarget p addr flags + pageUp len)) :
    PermInv (vmaMmap k p addr len prot flags).p := by
  have hmaps := h.maps.mmap hpl
  refine ⟨hu.ok, hmaps, ?_⟩
  unfold mmapTarget at hvac
  have hal := pageUp_mod len
  have hend := vmaMmap_cases k p addr len prot flags
  generalize vmaMmap k p addr len prot flags = r at hmaps hend
  cases hend with
  | refused err => exact h.agrees
  | fixed hlen hwx hf ha =>
    have hfit := hpl hlen hwx
    rw [if_pos hf] at hfit hvac
    exact (h.munmap (k := k) addr (pageUp len)).agrees.mmapInsert (hfit ha).2.1 hwx
      (fun x hc hr => munmap_blank h ha hal (hfit ha) hvac hc hr) hmaps
  | cursor hlen hwx hf hlim =>
    have hfree := hpl hlen hwx
    rw [if_neg (by rw [hf]; decide)] at hfree hvac
    obtain ⟨hadd, hle⟩ := cursor_room (pageUp_lt len) h.maps.cursor_le hlim
    exact .mmapInsert (p := { p with mmapNext := add64 p.mmapNext (pageUp len) })
      ⟨h.wf, h.perm⟩ (lt_of_le_of_lt hle (by decide)) hwx
      (fun x hc hr => h.wf.blank x hc (hvac x hc hr fun w hw =>
        cursor_not_inRange (hfree hle).2 hw hr)) hmaps

/-! ## Device mappings -/

/-- Leaves are kept, or mapped to a device inside `[lo, hi)`. -/
def Painted (prot lo hi : ℕ) (vm vm' : Vm) : Prop := WF vm.as → WF vm'.as ∧
  ∀ x, UserCell 1 x → vm'.as.ent 1 x = vm.as.ent 1 x ∨
    InRange lo hi x ∧ ∃ f, vm'.as.ent 1 x = { physPte prot with frame := f, present := true }

theorem Painted.trans {vm'' : Vm} (h1 : Painted prot lo hi vm vm')
    (h2 : Painted prot lo hi vm' vm'') : Painted prot lo hi vm vm'' := by
  intro hwf
  obtain ⟨w1, l1⟩ := h1 hwf
  obtain ⟨w2, l2⟩ := h2 w1
  refine ⟨w2, fun x hc => ?_⟩
  rcases l2 x hc with he | he
  · rw [he]; exact l1 x hc
  · exact .inr he

theorem mapPhysLoop_painted (n : ℕ) : ∀ i vm, (∀ j, i ≤ j → j < i + n → UserPage (vpnOf (addr + 4096 * j)) ∧
      InRange lo hi (vpnOf (addr + 4096 * j))) →
    Painted prot lo hi vm (mapPhysLoop addr phys (physPte prot) n i vm).2 := by
  induction n with
  | zero => intro i vm _ hwf; exact ⟨hwf, fun _ _ => .inl rfl⟩
  | succ n ih =>
    intro i vm hu
    obtain ⟨hpage, hr⟩ := hu i le_rfl (by omega)
    have h1 : Painted prot lo hi vm (vm.mapInto (addr + 4096 * i) (frameField (add64 phys (4096 * i))) (physPte prot)).2 := by
      intro hwf
      obtain ⟨hwf', hother, hself⟩ := mapInto_leaf hwf (userCell_vpn hpage) (frameField (add64 phys (4096 * i))) (physPte prot)
      refine ⟨hwf', fun x _ => ?_⟩
      by_cases hx : x = vpnOf (addr + 4096 * i)
      · subst hx
        rw [hself]
        split
        · exact .inr ⟨hr, _, rfl⟩
        · exact .inl rfl
      · exact .inl (hother x hx)
    unfold mapPhysLoop
    dsimp only
    split
    · exact h1.trans (ih (i + 1) _ fun j hj hj' => hu j (by omega) (by omega))
    · exact h1

theorem writeRight_phys (h : WriteRight { physPte prot with frame := f, present := true }) : protWrite prot := by
  rcases h with h | h
  · exact h
  · simp [physPte, Pte.zero] at h

theorem PermInv.painted {vmas : List Vma} {k' : Kernel} (h : PermInv p) (hx : protExec prot = false)
    (hlim : CursorRoom p.mmapNext (pageUp len))
    (hfree : CursorFree p (pageUp len)) (hvac : Vacant p p.mmapNext (p.mmapNext + pageUp len))
    (hins : vmaInsert k p.vmas p.mmapNext (add64 p.mmapNext (pageUp len)) prot 0x41 = (some vmas, k'))
    (hpaint : Painted prot p.mmapNext (p.mmapNext + pageUp len) ⟨k', p.as⟩ vm) :
    PermInv ⟨vm.as, vmas, add64 p.mmapNext (pageUp len)⟩ := by
  have hmaps := h.maps.physInsert hlim hfree hins vm.as
  refine ⟨h.user.physInsert hlim hins vm.as, hmaps, (hpaint h.wf).1, ?_⟩
  obtain ⟨hadd, hle⟩ := cursor_room (pageUp_lt len) h.maps.cursor_le hlim
  rw [hadd] at hins
  have hins' : (vmaInsert k p.vmas p.mmapNext (p.mmapNext + pageUp len) prot 0x41).1 = some vmas := by
    rw [hins]
  have hout := (hfree hle).2
  have hperm : PermOK p.as vmas := h.perm.insert hins' (by rw [hx, Bool.and_false]) (fun x hc hr hw => by
    have hnone := hvac x hc hr fun w hw => cursor_not_inRange hout hw hr
    rw [h.wf.blank x hc hnone] at hw
    exact absurd hw writeRight_zero) hmaps.vmas
  refine ⟨fun x hc => ?_, fun w hw => ⟨(hperm.vma w hw).wx, fun x hc hr hwr => ?_⟩⟩
  · rcases (hpaint h.wf).2 x hc with he | ⟨-, f, he⟩
    · rw [he]; exact hperm.leaf x hc
    · rw [he]; exact ⟨fun _ => rfl, fun _ => rfl⟩
  · rcases (hpaint h.wf).2 x hc with he | ⟨hrange, f, he⟩
    · rw [he] at hwr; exact (hperm.vma w hw).write x hc hr hwr
    · rw [he] at hwr
      -- the cursor's range is covered by the new mapping only
      rcases vmaInsert_covers hins' hw hr with ⟨u, hu, hru, -⟩ | ⟨-, hp, -⟩
      · exact absurd hru (cursor_not_inRange hout hu hrange)
      · rw [hp]; exact writeRight_phys hwr

theorem PermInv.mapPhys (h : PermInv p) (hpl : Placed (k, p) (.mapPhys phys len prot))
    (hvac : Vacant p p.mmapNext (p.mmapNext + pageUp len)) : PermInv (vmaMapPhys k p phys len prot).p := by
  have hend := vmaMapPhys_cases k p phys len prot
  generalize vmaMapPhys k p phys len prot = r at hend
  have hloop : ∀ k', CursorRoom p.mmapNext (pageUp len) → Painted prot p.mmapNext (p.mmapNext + pageUp len) ⟨k', p.as⟩
        (mapPhysLoop p.mmapNext phys (physPte prot) (pageUp len / 4096) 0 ⟨k', p.as⟩).2 := fun k' hlim =>
    mapPhysLoop_painted _ 0 _ fun j _ hj => by
      obtain ⟨-, hle⟩ := cursor_room (pageUp_lt len) h.maps.cursor_le hlim
      have hlt : p.mmapNext + 4096 * j < userAddrLimit := by
        have := (h.user.cursor hle).2; omega
      have := h.maps.cursor_aligned
      refine ⟨h.user.cursorPage hlim (by omega), ?_⟩
      rw [vpnOf_eq hlt]
      unfold InRange; omega
  cases hend with
  | refused | noNode => exact h
  | mapped hlen hx hlim hins hl =>
    rename_i k' vmas vm
    have hp := hloop k' hlim
    rw [hl] at hp
    exact h.painted hx hlim (hpl hlen hx) hvac hins hp
  | rolledBack hlen hx hlim hins hl hback =>
    rename_i k' vmas i vm vm'
    have hp := hloop k' hlim
    have hi := (mapPhysLoop_failed (pageUp len / 4096) 0 ⟨k', p.as⟩ (e := physPte prot) (by rw [hl])).2
    rw [hl] at hp
    have hinv := h.painted hx hlim (hpl hlen hx) hvac hins hp
    have hroll : Cleared vm vm' := hback ▸ Run.foldl_rel Cleared.chains.refl Cleared.chains.trans
      (fun b hb vm => .unmapFrom (h.user.cursorPage hlim (by have := List.mem_range.1 hb; omega)) false vm) vm
    have hback' : PermInv ⟨vm'.as, vmas, add64 p.mmapNext (pageUp len)⟩ :=
      ⟨⟨hinv.user.vmas, hinv.user.base, hinv.user.limit, hinv.user.aligned⟩,
        ⟨hinv.maps.vmas, hinv.maps.cursor_aligned, hinv.maps.cursor_le⟩,
        (hroll hinv.wf).1, hinv.perm.weaken fun x hc => hroll.weaker hinv.wf hc⟩
    exact hback'.munmap _ _

/-! ## Faults and checks -/

theorem PermInv.ofAgrees (h : PermInv p) (ha : Agrees { p with as := as }) : PermInv { p with as := as } :=
  ⟨⟨h.user.vmas, h.user.base, h.user.limit, h.user.aligned⟩, ⟨h.maps.vmas, h.maps.cursor_aligned, h.maps.cursor_le⟩, ha⟩

/-- No leaf gets a right it did not have. -/
def NoGain (vm vm' : Vm) : Prop := WF vm.as → WF vm'.as ∧
  ∀ x, UserCell 1 x → Weaker (vm'.as.ent 1 x) (vm.as.ent 1 x)

theorem NoGain.chains : Chains NoGain where
  refl _ hwf := ⟨hwf, fun _ _ => .refl _⟩
  trans _ _ _ h1 h2 hwf := ⟨(h2 (h1 hwf).1).1, fun x hc => ((h2 (h1 hwf).1).2 x hc).trans ((h1 hwf).2 x hc)⟩
  kmalloc _ hwf := ⟨hwf, fun _ _ => .refl _⟩

theorem CowLeaf.weaker {e' : Pte} (h : CowLeaf e) (hw : e'.cow = false) (hnx : e'.nx = e.nx) : Weaker e' e := by
  have hr : WriteRight e := .inr ⟨h.present, h.cow⟩
  exact ⟨fun _ => hr, fun hl => ⟨fun _ => hnx.trans (hl.nx hr), fun _ => hw⟩⟩

theorem NoGain.put (vm : Vm) (hwf : WF vm.as) (hc : UserCell 1 x) (hf : e.hasFrame)
    (hold : (vm.as.ent 1 x).hasFrame) (hw : Weaker e (vm.as.ent 1 x)) :
    WF (vm.as.put 1 x e) ∧ ∀ y, UserCell 1 y → Weaker ((vm.as.put 1 x e).ent 1 y) (vm.as.ent 1 y) := by
  refine ⟨hwf.putLeaf (.inr ⟨hf, hwf.path hc hold⟩), fun y _ => ?_⟩
  by_cases hy : y = x
  · subst hy; rw [AddrSpace.put_self]; exact hw
  · rw [AddrSpace.put_other fun h => hy h.2]; exact .refl _

theorem CowLeaf.hasFrame (h : CowLeaf e) : e.hasFrame := by simp [Pte.hasFrame, h.present]

theorem NoGain.cowFault (hc : ¬ KernelCow vm va) : NoGain vm (vm.handleCowFault va).2 := by
  by_cases hu : UserPage (vpnOf va)
  · intro hwf
    have hcell := userCell_vpn hu
    have hend := handleCowFault_cases vm hwf hcell
    generalize vm.handleCowFault va = r at hend
    cases hend with
    | refused => exact NoGain.chains.refl vm hwf
    | noFrame ha => exact ⟨hwf, fun _ _ => .refl _⟩
    | sole h hr | copied h hr ha => exact NoGain.put vm hwf hcell h.hasFrame h.hasFrame (h.weaker rfl rfl)
  · rw [handleCowFault_refused hc hu]
    exact NoGain.chains.refl vm

theorem Agrees.noGain (h : Agrees p) (hn : NoGain ⟨k, p.as⟩ ⟨vm.k, as⟩) :
    Agrees { p with as := as } := ⟨(hn h.wf).1, h.perm.weaken (hn h.wf).2⟩

theorem VmasFrom.unique (h : VmasFrom b l) (hv : v ∈ l) (hw : w ∈ l)
    (h1 : InRange v.start v.stop x) (h2 : InRange w.start w.stop x) : v = w := by
  induction l generalizing b with
  | nil => exact absurd hv List.not_mem_nil
  | cons u us ih =>
    have later : ∀ {c : Vma}, c ∈ us → InRange c.start c.stop x → u.stop ≤ x * 4096 := fun hc hr =>
      (h.2.2.le_start _ hc).trans hr.1
    rcases List.mem_cons.1 hv with hv' | hv' <;> rcases List.mem_cons.1 hw with hw' | hw'
    · rw [hv', hw']
    · subst hv'; have := later hw' h2; have := h1.2; omega
    · subst hw'; have := later hv' h1; have := h2.2; omega
    · exact ih h.2.2 hv' hw'

theorem VmaOK.inRange (hv : VmaOK v) (hu : VmaUser v) (h1 : v.start ≤ addr) (h2 : addr < v.stop) :
    InRange v.start v.stop (vpnOf addr) := by
  have := hv.start_aligned
  rw [vpnOf_eq (lt_of_lt_of_le h2 hu.high)]
  unfold InRange; omega

theorem Agrees.mapInto (h : Agrees p) (hc : UserCell 1 (vpnOf va)) (hvm : vm.as = p.as)
    (hleaf : LeafOK { e with frame := f, present := true })
    (hvma : ∀ w ∈ p.vmas, InRange w.start w.stop (vpnOf va) →
      WriteRight { e with frame := f, present := true } → protWrite w.prot) :
    Agrees { p with as := (vm.mapInto va f e).2.as } := by
  obtain ⟨hwf, hother, hself⟩ := mapInto_leaf (hvm ▸ h.wf) hc f e
  rw [hvm] at hother hself
  refine ⟨hwf, fun x hx => ?_, fun w hw => ⟨(h.perm.vma w hw).wx, fun x hx hrg hwr => ?_⟩⟩
  · by_cases hxv : x = vpnOf va
    · subst hxv
      rw [hself]
      split
      · exact hleaf
      · exact h.perm.leaf _ hx
    · dsimp only
      rw [hother x hxv]
      exact h.perm.leaf x hx
  · dsimp only at hwr
    by_cases hxv : x = vpnOf va
    · subst hxv
      rw [hself] at hwr
      split at hwr
      · exact hvma w hw hrg hwr
      · exact (h.perm.vma w hw).write _ hx hrg hwr
    · rw [hother x hxv] at hwr
      exact (h.perm.vma w hw).write x hx hrg hwr

theorem writeRight_protPte (h : WriteRight { protPte prot with frame := f, present := true }) : protWrite prot := by
  rcases h with h | h
  · exact h
  · simp [protPte, Pte.zero] at h

theorem PermInv.vmaFault (h : PermInv p) (addr : ℕ) (write : Bool) : PermInv (vmaFault k p addr write).2.2 := by
  have hend := vmaFault_cases k p addr write
  generalize NeoOS.vmaFault k p addr write = r at hend
  cases hend with
  | refused | noFrame => exact h
  | tried hv hprot hw hphys ha hr =>
    rename_i v f k' r
    obtain ⟨hmem, h1, h2⟩ := vmaFind_mem hv
    have hin := (h.maps.vmas.each v hmem).inRange (h.user.vmas v hmem) h1 h2
    have hu := (h.user.vmas v hmem).page h1 h2
    rw [← vpnOf_pageDown] at hin hu
    subst hr
    refine h.ofAgrees (h.agrees.mapInto (userCell_vpn hu) rfl ⟨fun hwr => ?_, fun _ => rfl⟩ ?_)
    · -- a mapping is never writable and executable
      have hwx := (h.perm.vma v hmem).wx
      rw [writeRight_protPte hwr, Bool.true_and] at hwx
      simp [protPte, hwx]
    · intro w hw' hrg hwr
      rw [← h.maps.vmas.unique hmem hw' hin hrg]
      exact writeRight_protPte hwr

theorem PermInv.pageFault {write : Bool} (h : PermInv p)
    (hc : write → ¬ KernelCow ⟨k, p.as⟩ addr) : PermInv (pageFault k p addr write).2.2 := by
  unfold NeoOS.pageFault
  split
  · split
    · rename_i hw
      exact h.ofAgrees (h.agrees.noGain (.cowFault (hc hw)))
    · exact h
  · exact h.vmaFault addr write

theorem PermInv.access (h : PermInv p) (k : Kernel) (addr : ℕ) (write : Bool)
    (hc : write → ¬ KernelCow ⟨k, p.as⟩ addr) : PermInv (access k p addr write).2.2 := by
  unfold NeoOS.access
  split
  · exact h
  · dsimp only
    split <;> exact h.pageFault hc

theorem PermInv.loadPage {pflags : ℕ} {bytes : ℕ → UInt8} (h : PermInv p) (hu : UserPage (vpnOf va))
    (hx : (pflags.testBit 1 && pflags.testBit 0) = false)
    (hfree : ∀ w ∈ p.vmas, ¬ InRange w.start w.stop (vpnOf va)) :
    PermInv { p with as := (loadPage ⟨k, p.as⟩ va bytes (Phdr.flagsPte pflags)).2.as } := by
  refine h.ofAgrees ?_
  unfold NeoOS.loadPage
  split
  · exact h.agrees
  · rename_i f k' ha
    refine h.agrees.mapInto (f := f) (e := Phdr.flagsPte pflags) (userCell_vpn hu) rfl
      ⟨fun hwr => ?_, fun _ => rfl⟩ fun w hw hrg => absurd hrg (hfree w hw)
    have hw1 : pflags.testBit 1 := by
      rcases hwr with hwr | hwr
      · exact hwr
      · simp [Phdr.flagsPte, Pte.zero] at hwr
    rw [hw1, Bool.true_and] at hx
    simp [Phdr.flagsPte, hx]

/-! ## All calls -/

/-- **The condition on a call**: what `CallUserOnly` asks for; mappings are placed
soundly and over pages that hold no frame; `mprotect` without `PROT_WRITE` finds no
copy-on-write page; an image page is loaded where there is no mapping. -/
def CallPerm (k : Kernel) (p : Proc) (op : ProcOp) : Prop := CallUserOnly k p op ∧
  match op with
  | .loadPage va _ _ => ∀ w ∈ p.vmas, ¬ InRange w.start w.stop (vpnOf va)
  | .mmap addr len prot flags => mapAnonymous flags = true → Placed (k, p) (.mmap addr len prot flags) ∧
      Vacant p (mmapTarget p addr flags) (mmapTarget p addr flags + pageUp len)
  | .mprotect addr len prot => ∀ w ∈ p.vmas, NoCowLeft p.as prot addr (pageUp (add64 addr len)) w
  | .fbMmap _ len prot => Placed (k, p) (.mapPhys 0 len prot) ∧
      Vacant p p.mmapNext (p.mmapNext + pageUp len)
  | _ => True

/-- **Every call** that meets the condition keeps the agreement. -/
theorem PermInv.call {op : ProcOp} (h : PermInv p) (hok : CallPerm k p op) (fbPhys fbSize : ℕ) :
    PermInv (procStep fbPhys fbSize op k p).2 := by
  obtain ⟨hu, hok⟩ := hok
  cases op with
  | loadPage va bytes pflags =>
    unfold procStep
    dsimp only
    split
    · exact h
    · exact h.loadPage hu (Bool.not_eq_true _ ▸ ‹¬ _›) hok
  | mmap addr len prot flags =>
    have hstep := UserStep.mmap (k := k) h.user hu
    unfold procStep sysMmap at *
    dsimp only at *
    split
    · exact h
    · rename_i hanon
      have ha : mapAnonymous flags := by simpa using hanon
      rw [if_neg hanon] at hstep
      exact h.mmap hstep (hok ha).1 (hok ha).2
  | munmap addr len => exact h.munmap addr len
  | mprotect addr len prot => exact h.mprotect hok
  | fbMmap off len prot =>
    unfold procStep fbMmap
    dsimp only
    split
    · exact h
    split
    · exact h
    split
    · exact h
    · exact h.mapPhys hok.1 hok.2
  | store addr b =>
    have ha := h.access k addr true fun _ => hu
    unfold procStep store
    dsimp only
    split <;> exact ha
  | load addr =>
    have ha := h.access k addr false nofun
    unfold procStep load
    dsimp only
    split <;> exact ha
  | kernelWrite addr len =>
    exact h.ofAgrees (h.agrees.noGain (userRangeWritable_rel NoGain.chains (fun _ _ => .cowFault) hu))

end NeoOS
