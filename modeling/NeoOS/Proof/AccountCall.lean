import NeoOS.Proof.AccountStep

/-!
# The accounts across faults, stores and all calls

A fault fills a page with a fresh frame; an image page too, but there `elf_load` does
not look whether the page was mapped, so frames for the tables must be there. A store
goes to a frame nobody else refers to, or to the framebuffer.

* `VmOK.call`: what every call of one process keeps.
-/

namespace NeoOS

open Finset

variable {aim : Aim} {E : ℕ → ℕ} {k k' : Kernel} {p : Proc} {vm vm' : Vm} {as : AddrSpace} {e : Pte}
  {N : Finset (ℕ × ℕ)} {addr len prot flags va v l f n : ℕ} {write : Bool}

/-! ## Frames for tables -/

/-- The entries of `N` that have no table. -/
def missing (N : Finset (ℕ × ℕ)) (as : AddrSpace) : Finset (ℕ × ℕ) :=
  N.filter fun c => (as.ent c.1 c.2).present = false

theorem missing_table (N : Finset (ℕ × ℕ)) (as : AddrSpace) (l key f : ℕ) :
    missing N (as.put l key (.table f)) = (missing N as).erase (l, key) := by
  ext c
  unfold missing
  rw [mem_erase, mem_filter, mem_filter]
  by_cases hc : c.1 = l ∧ c.2 = key
  · obtain ⟨rfl, rfl⟩ := hc
    rw [AddrSpace.put_self]
    simp [Pte.table]
  · rw [AddrSpace.put_other hc]
    refine ⟨fun h => ⟨fun he => hc (by rw [he]; exact ⟨rfl, rfl⟩), h⟩, And.right⟩

theorem missing_leaf (hN : ∀ c ∈ N, 2 ≤ c.1) (as : AddrSpace) (e : Pte) : missing N (as.put 1 v e) = missing N as :=
  filter_congr fun c hc => by rw [AddrSpace.put_other fun h => by have := hN c hc; omega]

/-- There are frames for the tables of `N` that are still missing. -/
structure Supplied (N : Finset (ℕ × ℕ)) (vm : Vm) : Prop where
  pmm : PmmOK vm.k.pmm
  wf : WF vm.as
  supply : Supply (missing N vm.as).card vm.k

theorem Supplied.tableEntry (h : Supplied N vm) (hc : UserCell l (keyOf l v)) (h2 : 2 ≤ l)
    (hup : l ≤ 3 → (vm.as.ent (l + 1) (keyOf (l + 1) v)).present) (hmem : (l, keyOf l v) ∈ N) :
    (vm.tableEntry l (keyOf l v)).1 ∧ Supplied N (vm.tableEntry l (keyOf l v)).2 := by
  have hget : vm.get l (keyOf l v) = vm.as.ent l (keyOf l v) := by
    unfold Vm.get; rw [hc.not_shared]; rfl
  unfold Vm.tableEntry
  rw [hget]
  split
  · exact ⟨rfl, h⟩
  rename_i hp
  have hp' : (vm.as.ent l (keyOf l v)).present = false := Bool.not_eq_true _ ▸ hp
  have hm : (l, keyOf l v) ∈ missing N vm.as := mem_filter.2 ⟨hmem, hp'⟩
  have hs := h.supply
  rw [← card_erase_add_one hm] at hs
  obtain ⟨f, k', ha, hs'⟩ := hs.alloc h.pmm
  have hpmm : PmmOK k'.pmm := by
    rcases alloc_cases h.pmm 0 with he | ⟨b, s, he, hok, -⟩ <;> rw [he] at ha <;> cases ha
    exact hok
  unfold Kernel.allocTableFrame
  rw [ha]
  dsimp only
  rw [WF.link ⟨k'.zeroFrame f, vm.as⟩ h.wf hc h2 hp']
  refine ⟨rfl, hpmm, h.wf.putTable h2 (fun hl => ?_) f, ?_⟩
  · rw [keyOf_up (by omega)]
    exact hup hl
  rw [missing_table]
  exact ⟨hs'.free, hs'.uninjected⟩

/-- The tables on the way to page `v`. -/
def pathTables (v : ℕ) : Finset (ℕ × ℕ) := {(4, keyOf 4 v), (3, keyOf 3 v), (2, keyOf 2 v)}

/-- **`paging_map_into` succeeds** while there are frames for the tables. -/
theorem Supplied.mapInto (h : Supplied N vm) (hc : UserCell 1 (vpnOf va)) (hN : ∀ c ∈ N, 2 ≤ c.1)
    (hsub : pathTables (vpnOf va) ⊆ N) (f : ℕ) (e : Pte) :
    (vm.mapInto va f e).1 ∧ Supplied N (vm.mapInto va f e).2 := by
  have hcell : ∀ l, 1 ≤ l → l ≤ 4 → UserCell l (keyOf l (vpnOf va)) := fun l =>
    userCell_keyOf hc.userPage hc.lt
  have hwf := (mapInto_leaf h.wf hc f e).1
  have h4 := h.tableEntry (hcell 4 (by decide) le_rfl) (by decide) (fun h => by omega) (hsub (by simp [pathTables]))
  have p4 := (tableEntry_cases h.wf (hcell 4 (by decide) le_rfl) (by decide) fun h => by omega).2
  unfold Vm.mapInto at hwf ⊢
  dsimp only at hwf ⊢
  generalize vm.tableEntry 4 (keyOf 4 (vpnOf va)) = r4 at h4 p4 hwf ⊢
  obtain ⟨b4, vm4⟩ := r4
  obtain ⟨rfl, s4⟩ := h4
  have h3 := s4.tableEntry (hcell 3 (by decide) (by decide)) (by decide) (fun _ => p4 rfl) (hsub (by simp [pathTables]))
  have p3 := (tableEntry_cases s4.wf (hcell 3 (by decide) (by decide)) (by decide) fun _ => p4 rfl).2
  generalize vm4.tableEntry 3 (keyOf 3 (vpnOf va)) = r3 at h3 p3 hwf ⊢
  obtain ⟨b3, vm3⟩ := r3
  obtain ⟨rfl, s3⟩ := h3
  have h2 := s3.tableEntry (hcell 2 (by decide) (by decide)) (by decide) (fun _ => p3 rfl) (hsub (by simp [pathTables]))
  generalize vm3.tableEntry 2 (keyOf 2 (vpnOf va)) = r2 at h2 hwf ⊢
  obtain ⟨b2, vm2⟩ := r2
  obtain ⟨rfl, s2⟩ := h2
  simp only [Bool.not_true, Bool.false_eq_true, if_false, Vm.set_leaf hc] at hwf ⊢
  refine ⟨trivial, s2.pmm, hwf, ?_⟩
  rw [missing_leaf hN]
  exact s2.supply

/-! ## Fresh pages -/

/-- Mapping a frame in hand, which nobody else refers to. -/
theorem VmOK.mapFresh (h : VmOK aim (fun x => E x + one f x) vm) (hc : UserCell 1 (vpnOf va))
    (hn : e.nofree = false) (h0 : f ≠ 0) (hlt : f < maxFrames) (hsole : vm.k.pmm.refcount f = 1) :
    Spares (fun x => E x + one f x) vm.k (vm.mapInto va f e).2.k ∧
      VmOK aim (fun x => E x + if (vm.mapInto va f e).1 then own (vm.as.ent 1 (vpnOf va)) x
        else one f x) (vm.mapInto va f e).2 := by
  have ho : Pte.owns { e with frame := f, present := true } := by
    unfold Pte.owns Pte.hasFrame; rw [hn]; rfl
  have hown : ∀ x, own { e with frame := f, present := true } x = one f x := own_owns ho
  have hm := VmOK.mapInto (E := E) (f := f) (e := e) hc (h.congr fun x => by rw [hown])
    ⟨fun _ => ⟨h0, hlt⟩, fun hd => absurd (hn.symm.trans hd) (by decide), fun _ _ _ => hsole⟩
  simpa only [hown] using hm

/-- A fault at `addr` does not replace a page that owns a frame. -/
def FaultBlank (k : Kernel) (p : Proc) (addr : ℕ) : Prop :=
  ((⟨k, p.as⟩ : Vm).leaf (vpnOf addr)).present = false → ∀ w, vmaFind addr p.vmas = some w → w.prot ≠ 0 →
    vmaPhys w.flags = false → (p.as.ent 1 (vpnOf addr)).owns = false

theorem VmOK.vmaFault (h : VmOK aim E ⟨k, p.as⟩) (hp : UserOK p)
    (hb : aim.noLeak → ∀ w, vmaFind addr p.vmas = some w → w.prot ≠ 0 → vmaPhys w.flags = false →
      (p.as.ent 1 (vpnOf addr)).owns = false) :
    Sound aim E k ⟨(vmaFault k p addr write).2.1, (vmaFault k p addr write).2.2.as⟩ := by
  have hend := vmaFault_cases k p addr write
  generalize NeoOS.vmaFault k p addr write = r at hend
  cases hend with
  | refused => exact .refl h
  | noFrame ha => exact h.idle (.refused .refl ha)
  | tried hv hprot hw hphys ha hr =>
    rename_i w f k' r
    obtain ⟨hmem, h1, h2⟩ := vmaFind_mem hv
    have hc : UserCell 1 (vpnOf (pageDown addr)) := by
      rw [vpnOf_pageDown]
      exact userCell_vpn ((hp.vmas w hmem).page h1 h2)
    have hh := h.alloc ha fun _ => 0
    obtain ⟨hsp, hok⟩ := hh.ok.mapFresh (e := protPte w.prot) hc rfl hh.ne_zero hh.lt hh.sole
    rw [vpnOf_pageDown] at hok
    change r = Vm.mapInto ⟨{ k' with mem := Function.update k'.mem f fun _ => 0 }, p.as⟩ (pageDown addr) f
      (protPte w.prot) at hr
    rw [← hr] at hsp hok
    have hsp' : Spares E k r.2.k := hh.spares.trans (hsp.mono fun x => Nat.le_add_right _ _)
    cases hr1 : r.1 with
    | true =>
      rw [hr1] at hok
      refine ⟨hok.le (fun x => Nat.le_add_right _ _) fun hx x => ?_, hsp'⟩
      change E x + own (p.as.ent 1 (vpnOf addr)) x ≤ E x
      rw [own_not (hb hx w hv hprot hphys), add_zero]
    | false =>
      rw [hr1] at hok
      obtain ⟨hok', hsp''⟩ := VmOK.free (E := E) (f := f) hok hh.ne_zero hh.lt
      exact ⟨hok', hsp'.trans hsp''⟩

/-- **One page of an image**: it owns nothing yet, and there are frames for it and for its
tables. -/
theorem VmOK.loadPage (h : VmOK aim E vm) (hc : UserCell 1 (vpnOf va)) (hn : e.nofree = false) (bytes : ℕ → UInt8)
    (hs : aim.noLeak → (vm.as.ent 1 (vpnOf va)).owns = false ∧ Supply 4 vm.k) :
    Sound aim E vm.k (loadPage vm va bytes e).2 := by
  unfold NeoOS.loadPage
  split
  · rename_i k' ha
    exact h.idle (.refused .refl ha)
  rename_i f k' ha
  have hh := h.alloc ha bytes
  obtain ⟨hsp, hok⟩ := hh.ok.mapFresh (e := e) hc hn hh.ne_zero hh.lt hh.sole
  refine ⟨hok.le (fun x => Nat.le_add_right _ _) fun hx x => ?_, hh.spares.trans (hsp.mono fun x => Nat.le_add_right _ _)⟩
  obtain ⟨ho, hsup⟩ := hs hx
  -- with frames for the tables the mapping succeeds, and the old leaf held nothing
  obtain ⟨f', k'', ha', hsup'⟩ := hsup.alloc h.kern.pmm
  rw [ha] at ha'
  cases ha'
  have hcard : (missing (pathTables (vpnOf va)) vm.as).card ≤ 3 := (card_filter_le _ _).trans card_le_three
  have hmap := Supplied.mapInto (N := pathTables (vpnOf va))

    ⟨hh.ok.kern.pmm, h.wf, ⟨hcard.trans hsup'.free, fun i hi => hsup'.uninjected i (lt_of_lt_of_le hi hcard)⟩⟩ hc
    (by simp [pathTables]) subset_rfl f e
  rw [hmap.1, if_pos rfl]
  rw [own_not ho, add_zero]

/-! ## Accesses -/

theorem VmOK.pageFault (h : VmOK aim E ⟨k, p.as⟩) (hp : UserOK p)
    (hb : aim.noLeak → FaultBlank k p addr) (hc : write → ¬ KernelCow ⟨k, p.as⟩ addr) :
    Sound aim E k ⟨(pageFault k p addr write).2.1, (pageFault k p addr write).2.2.as⟩ := by
  unfold NeoOS.pageFault
  split
  · split
    · rename_i hw
      by_cases hu : UserPage (vpnOf addr)
      · exact h.cowFault (userCell_vpn hu)
      · rw [handleCowFault_refused (hc hw) hu]
        exact .refl h
    · exact .refl h
  · rename_i hpres
    exact h.vmaFault hp fun hx => hb hx (Bool.not_eq_true _ ▸ hpres)

theorem VmOK.access (h : VmOK aim E ⟨k, p.as⟩) (hp : UserOK p) (write : Bool)
    (hb : aim.noLeak → FaultBlank k p addr) (hc : write → ¬ KernelCow ⟨k, p.as⟩ addr) :
    Sound aim E k ⟨(access k p addr write).2.1, (access k p addr write).2.2.as⟩ := by
  unfold NeoOS.access
  split
  · exact .refl h
  · dsimp only
    split <;> exact h.pageFault hp hb hc

/-- An access that goes through at a kernel page did so at once. -/
theorem access_user (hp : UserOK p) (write : Bool) (hc : write → ¬ KernelCow ⟨k, p.as⟩ addr) (h : (access k p addr write).1) :
    hwAllows ⟨(access k p addr write).2.1, (access k p addr write).2.2.as⟩ (vpnOf addr) write ∧
      (hwAllows ⟨k, p.as⟩ (vpnOf addr) write ∨ UserPage (vpnOf addr)) := by
  unfold NeoOS.access at h ⊢
  split at h
  · rename_i hw
    rw [if_pos hw]
    exact ⟨hw, .inl hw⟩
  rename_i hw
  rw [if_neg hw]
  dsimp only at h ⊢
  split at h
  swap
  · rename_i hr
    exact absurd h hr
  rename_i hr
  rw [if_pos hr]
  refine ⟨h, .inr ?_⟩
  by_contra hu
  unfold NeoOS.pageFault at hr
  split at hr
  · split at hr
    · rename_i hwr
      rw [handleCowFault_refused (hc hwr) hu] at hr
      cases hr
    · cases hr
  · have hend := vmaFault_cases k p addr write
    generalize NeoOS.vmaFault k p addr write = r at hend hr
    cases hend with
    | refused | noFrame => cases hr
    | tried hv hprot hww hphys ha hr' =>
      obtain ⟨hmem, h1, h2⟩ := vmaFind_mem hv
      exact hu ((hp.vmas _ hmem).page h1 h2)

/-! ## All calls -/

/-- **What a call keeps**: the accounts; the frames everybody else refers to get no more
references and, outside the device frames, keep their bytes. -/
structure Stepped (aim : Aim) (E : ℕ → ℕ) (k : Kernel) (vm : Vm) : Prop where
  ok : VmOK aim E vm
  le : ∀ f, E f ≠ 0 → vm.k.pmm.refcount f ≤ k.pmm.refcount f
  mem : aim.apart → ∀ f, E f ≠ 0 → ¬ aim.device f → vm.k.mem f = k.mem f

theorem Sound.stepped (h : Sound aim E k vm) : Stepped aim E k vm := ⟨h.ok, h.spares.le, fun _ f hf _ => h.spares.mem f hf⟩

/-- The leaf a store that the processor allows goes to. -/
theorem hwAllows_leaf (hu : UserPage v) (h : hwAllows ⟨k, as⟩ v true) : (as.ent 1 v).present ∧ (as.ent 1 v).writable := by
  unfold hwAllows at h
  rw [Vm.get_leaf_user hu] at h
  simp only [List.all_cons, List.all_nil, Bool.and_true, Bool.and_eq_true, Bool.not_true, Bool.false_or] at h
  exact ⟨h.2.2.2.1.1, h.2.2.2.2⟩

/-- **A store** changes a frame nobody else refers to, or a device frame. -/
theorem VmOK.store (h : VmOK aim E ⟨k, p.as⟩) (hp : UserOK p) (b : UInt8)
    (hb : aim.noLeak → FaultBlank k p addr) (hc : ¬ KernelCow ⟨k, p.as⟩ addr)
    (hu : aim.apart → hwAllows ⟨k, p.as⟩ (vpnOf addr) true → UserPage (vpnOf addr)) :
    Stepped aim E k ⟨(store k p addr b).1, (store k p addr b).2.as⟩ := by
  have hs := h.access hp true hb fun _ => hc
  have hacc := access_user (k := k) hp true (fun _ => hc)
  unfold NeoOS.store
  dsimp only
  generalize NeoOS.access k p addr true = r at hs hacc
  split
  swap
  · exact hs.stepped
  rename_i hr
  obtain ⟨hw, hor⟩ := hacc hr
  have hl := hs.ok.leaves
  refine ⟨⟨hs.ok.kern.same rfl rfl rfl, hl.wf, hl.frames, hl.dev, hl.sole⟩, hs.spares.le, fun ha f hf hd => ?_⟩
  have hpage : UserPage (vpnOf addr) := hor.elim (hu ha) id
  have hcell := userCell_vpn hpage
  obtain ⟨hpres, hwr⟩ := hwAllows_leaf hpage hw
  have hleaf := hs.ok.wf.leaf (k := r.2.1) hcell
  dsimp only [Kernel.poke] at hleaf ⊢
  rw [hleaf, Function.update_of_ne]
  · exact hs.spares.mem f hf
  rintro rfl
  cases hn : (r.2.2.as.ent 1 (vpnOf addr)).nofree with
  | true => exact hd (hs.ok.leaves.dev _ hcell hn).2
  | false =>
    have ho : (r.2.2.as.ent 1 (vpnOf addr)).owns := by
      unfold Pte.owns Pte.hasFrame; rw [hpres, hn]; rfl
    have h1 := hs.ok.leaves.sole ha _ hcell ho hwr
    have h2 := hs.ok.kern.held (r.2.2.as.ent 1 (vpnOf addr)).frame
    have h3 := own_le_spaceRefs r.2.2.as hcell (r.2.2.as.ent 1 (vpnOf addr)).frame
    rw [own_self ho] at h3
    dsimp only at h1 h2
    omega

/-- The condition on a call. -/
def CallAccounted (aim : Aim) (k : Kernel) (p : Proc) : ProcOp → Prop
  | .loadPage va _ _ => aim.noLeak → (p.as.ent 1 (vpnOf va)).owns = false ∧ Supply 4 k
  | .mmap addr len prot flags =>
    mapAnonymous flags = true → len ≠ 0 → (protWrite prot && protExec prot) = false → mapFixed flags → addr % 4096 = 0 →
        Releases aim p.vmas addr (pageUp (add64 addr (pageUp len))) ⟨k, p.as⟩
  | .munmap addr len => addr % 4096 = 0 → Releases aim p.vmas addr (pageUp (add64 addr len)) ⟨k, p.as⟩
  | .mprotect addr len prot =>
    addr % 4096 = 0 → GrantsSole aim p.vmas addr (pageUp (add64 addr len)) prot ⟨k, p.as⟩
  | .fbMmap _ len _ =>
    ∀ x, InRange p.mmapNext (p.mmapNext + pageUp len) x → (p.as.ent 1 x).hasFrame = false
  | .store addr _ => (aim.noLeak → FaultBlank k p addr) ∧
    (aim.apart → hwAllows ⟨k, p.as⟩ (vpnOf addr) true → UserPage (vpnOf addr))
  | .load addr => aim.noLeak → FaultBlank k p addr
  | .kernelWrite _ _ => True

theorem fbFrame {phys size off j : ℕ} (h1 : ¬ (len = 0 ∨ add64 off len < off)) (h2 : ¬ add64 off len > size)
    (hj : j < pageUp len / 4096) : ∃ o < size, add64 (add64 phys off) (4096 * j) = add64 phys o := by
  refine ⟨off + 4096 * j, ?_, ?_⟩
  · unfold pageUp add64 u64 at *; omega
  · unfold add64 u64; omega

/-- **Every call of one process.** -/
theorem VmOK.call {op : ProcOp} {fbPhys fbSize : ℕ} (h : VmOK aim E ⟨k, p.as⟩) (hp : UserOK p)
    (hu : CallUserOnly k p op) (ha : CallAccounted aim k p op)
    (hdev : ∀ o < fbSize, aim.device (frameField (add64 fbPhys o))) :
    Stepped aim E k ⟨(procStep fbPhys fbSize op k p).1, (procStep fbPhys fbSize op k p).2.as⟩ := by
  cases op with
  | loadPage va bytes pflags =>
    unfold procStep
    dsimp only
    split
    · exact (Sound.refl h).stepped
    · exact (h.loadPage (userCell_vpn hu) rfl bytes ha).stepped
  | mmap addr len prot flags =>
    unfold procStep sysMmap
    dsimp only
    split
    · exact (Sound.refl h).stepped
    · rename_i hanon
      exact (h.vmaMmap hp (ha (by simpa using hanon))).stepped
  | munmap addr len => exact (h.munmap hp ha).stepped
  | mprotect addr len prot => exact (h.mprotect hp ha).stepped
  | fbMmap off len prot =>
    unfold procStep NeoOS.fbMmap
    dsimp only
    split
    · exact (Sound.refl h).stepped
    rename_i h1
    split
    · exact (Sound.refl h).stepped
    rename_i h2
    split
    · exact (Sound.refl h).stepped
    refine (h.mapPhys hp ha fun j hj => ?_).stepped
    obtain ⟨o, ho, he⟩ := fbFrame h1 h2 hj
    rw [he]
    exact hdev o ho
  | store addr b => exact h.store hp b ha.1 hu ha.2
  | load addr =>
    have hs := (h.access hp false ha nofun).stepped
    unfold procStep NeoOS.load
    dsimp only
    split <;> exact hs
  | kernelWrite addr len =>
    refine Sound.stepped ?_
    have hrel := userRangeWritable_rel (Sound.chains aim E (P := fun _ => True)
      fun _ _ _ => trivial) (fun vm va hc h _ => ⟨?_, trivial⟩) hu
    · exact (hrel h trivial).1
    · by_cases hpage : UserPage (vpnOf va)
      · exact h.cowFault (userCell_vpn hpage)
      · rw [handleCowFault_refused hc hpage]
        exact .refl h

end NeoOS
