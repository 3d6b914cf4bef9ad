import NeoOS.Proof.Account
import NeoOS.Proof.UserStep

/-!
# The accounts across the calls of one process

Each call is a sequence of the walks of `paging.c`; the conditions say what a walk
must find. `VmOK.call` collects them: a call keeps the accounts, a frame with a single
reference from outside keeps it, and its bytes too.
-/

namespace NeoOS

open Finset
open AddrSpace (put_other put_self)

variable {aim : Aim} {E : ℕ → ℕ} {k k' : Kernel} {p : Proc} {vm vm' : Vm} {as : AddrSpace} {w : Vma}
  {l : List Vma} {start stop addr len prot flags va f n x phys : ℕ}

/-- A condition on what the walks of a loop find, kept by them and by `kmalloc`. -/
theorem Sound.chains (aim : Aim) (E : ℕ → ℕ) {P : Vm → Prop}
    (hP : ∀ vm : Vm, VmOK aim E vm → P vm → P { vm with k := vm.k.kmalloc.2 }) :
    Chains fun vm vm' => VmOK aim E vm → P vm → Sound aim E vm.k vm' ∧ P vm' where
  refl vm h hp := ⟨.refl h, hp⟩
  trans a b c h1 h2 h hp := by
    obtain ⟨hs, hp'⟩ := h1 h hp
    obtain ⟨hs', hp''⟩ := h2 hs.ok hp'
    exact ⟨hs.trans hs', hp''⟩
  kmalloc vm h hp := ⟨h.idle (.kmalloc .refl), hP vm h hp⟩

/-! ## Unmapping -/

/-- The pages of `[start, stop)` that own a frame. -/
def owned (as : AddrSpace) (start stop : ℕ) : Finset ℕ :=
  (Finset.Ico (start / 4096) ((stop + 4095) / 4096)).filter fun x => (as.ent 1 x).owns = true

theorem owned_clear (as : AddrSpace) (start stop x : ℕ) :
    owned (as.put 1 x Pte.zero) start stop = (owned as start stop).erase x := by
  ext y
  unfold owned
  rw [mem_erase, mem_filter, mem_filter]
  by_cases hy : y = x
  · subst hy
    rw [put_self]
    simp [Pte.owns, Pte.hasFrame, Pte.zero]
  · rw [put_other fun h => hy h.2]
    exact ⟨fun h => ⟨hy, h⟩, And.right⟩

/-- Unmapping `[start, stop)` gives back what the pages own: an ordinary mapping shows no
device page, and, not to lose a reference, a device mapping shows no page that owns its
frame and the queue has room. -/
structure Releases (aim : Aim) (l : List Vma) (start stop : ℕ) (vm : Vm) : Prop where
  ordinary : ∀ v ∈ l, vmaPhys v.flags = false → ∀ va, Hits v start stop va → (vm.as.ent 1 (vpnOf va)).nofree = false
  phys : aim.noLeak → ∀ v ∈ l, vmaPhys v.flags → ∀ va, Hits v start stop va → (vm.as.ent 1 (vpnOf va)).owns = false
  room : aim.noLeak → Room (owned vm.as start stop).card vm.k

theorem Hits.owned (hh : Hits w start stop va) (hw : VmaUser w) (ho : (as.ent 1 (vpnOf va)).owns) :
    vpnOf va ∈ owned as start stop := by
  have hlt : va < userAddrLimit := lt_of_lt_of_le hh.high hw.high
  refine mem_filter.2 ⟨?_, ho⟩
  rw [vpnOf_eq hlt, mem_Ico]
  have := hh.first; have := hh.last
  omega

section

variable (h : Releases aim l start stop vm)
include h

theorem Releases.kmalloc : Releases aim l start stop { vm with k := vm.k.kmalloc.2 } :=
  ⟨h.ordinary, h.phys, fun hx => (h.room hx).still (.kmalloc _)⟩

theorem Releases.clear (hk : aim.noLeak → Room ((owned vm.as start stop).erase x).card k') :
    Releases aim l start stop ⟨k', vm.as.put 1 x Pte.zero⟩ := by
  refine ⟨fun v hv hph va hh => ?_, fun hx v hv hph va hh => ?_, fun hx => ?_⟩
  · by_cases he : vpnOf va = x
    · subst he
      exact congrArg Pte.nofree put_self
    · exact (congrArg Pte.nofree (put_other fun h => he h.2)).trans (h.ordinary v hv hph va hh)
  · by_cases he : vpnOf va = x
    · subst he
      exact congrArg Pte.owns put_self
    · exact (congrArg Pte.owns (put_other fun h => he h.2)).trans (h.phys hx v hv hph va hh)
  · change Room (owned (vm.as.put 1 x Pte.zero) start stop).card k'
    rw [owned_clear]
    exact hk hx

theorem Releases.unmapFrom (hwf : WF vm.as) (hv : w ∈ l) (hw : VmaUser w) (hh : Hits w start stop va) :
    Releases aim l start stop (vm.unmapFrom va (!vmaPhys w.flags)) := by
  have hc : UserCell 1 (vpnOf va) := userCell_vpn (hw.page hh.low hh.high)
  rw [unmapFrom_eq hwf hc]
  split
  swap
  · exact h
  rename_i hfr
  refine h.clear fun hx => ?_
  cases hph : vmaPhys w.flags with
  | true => exact (h.room hx).le (card_erase_le)
  | false =>
    have ho : (vm.as.ent 1 (vpnOf va)).owns := by
      unfold Pte.owns; rw [hfr, h.ordinary w hv hph va hh]; rfl
    refine .deferFree ?_ _
    rw [card_erase_add_one (hh.owned hw ho)]
    exact h.room hx

end

/-- **The unmapping loop.** -/
theorem VmOK.munmapLoop (h : VmOK aim E vm) (hl : VmasUser l) (hr : Releases aim l start stop vm) :
    Sound aim E vm.k (munmapLoop start stop l vm).2.2 := by
  refine (munmapLoop_rel (Sound.chains aim E fun _ _ => Releases.kmalloc)
    (fun w hw va hh vm h hr => ⟨?_, hr.unmapFrom h.wf hw (hl w hw) hh⟩) vm h hr).1
  have hc : UserCell 1 (vpnOf va) := userCell_vpn ((hl w hw).page hh.low hh.high)
  refine h.unmapFrom hc (fun hf => hr.ordinary w hw (by simpa using hf) va hh)
    (fun hx hf => hr.phys hx w hw (by simpa using hf) va hh) fun hx ho => (hr.room hx).le ?_
  exact card_pos.2 ⟨_, hh.owned (hl w hw) ho⟩

theorem VmOK.munmap (h : VmOK aim E ⟨k, p.as⟩) (hp : UserOK p)
    (hr : addr % 4096 = 0 → Releases aim p.vmas addr (pageUp (add64 addr len)) ⟨k, p.as⟩) :
    Sound aim E k ⟨(vmaMunmap k p addr len).k, (vmaMunmap k p addr len).p.as⟩ := by
  unfold vmaMunmap
  dsimp only
  split
  · exact .refl h
  rename_i ha
  split
  · exact .refl h
  · exact h.munmapLoop hp.vmas (hr (not_not.1 ha))

/-! ## Protecting -/

/-- A page that `mprotect` makes writable is copy-on-write, or the only reference to its
frame. -/
def GrantsSole (aim : Aim) (l : List Vma) (start stop prot : ℕ) (vm : Vm) : Prop :=
  aim.apart → protWrite prot → ∀ v ∈ l, ∀ va, Hits v start stop va →
    (vm.as.ent 1 (vpnOf va)).owns → (vm.as.ent 1 (vpnOf va)).cow = false →
    vm.k.pmm.refcount (vm.as.ent 1 (vpnOf va)).frame = 1

theorem mprotectPte_nofree (prot : ℕ) : (mprotectPte prot).nofree = false := by
  unfold mprotectPte; split <;> rfl

theorem mprotectPte_cow (prot : ℕ) : (mprotectPte prot).cow = false := by
  unfold mprotectPte; split <;> rfl

theorem mprotectPte_writable (h : (mprotectPte prot).writable) : protWrite prot := by
  unfold mprotectPte at h
  split at h
  · cases h
  · exact h

theorem GrantsSole.setprotFrom (h : GrantsSole aim l start stop prot vm) (hwf : WF vm.as)
    (hc : UserCell 1 (vpnOf x)) :
    GrantsSole aim l start stop prot (vm.setprotFrom x (mprotectPte prot)) := by
  rw [setprotFrom_eq hwf hc]
  split
  swap
  · exact h
  rename_i hfr
  intro ha hw v hv va hh
  by_cases he : vpnOf va = vpnOf x
  · dsimp only
    rw [he, put_self, setprotPte_owns (mprotectPte_nofree _) hfr, setprotPte_cow (mprotectPte_cow _),
      setprotPte_frame]
    intro ho hcow
    have := h ha hw v hv va hh
    rw [he] at this
    exact this ho hcow
  · dsimp only
    rw [put_other fun h => he h.2]
    exact h ha hw v hv va hh

theorem GrantsSole.kmalloc (h : GrantsSole aim l start stop prot vm) (hvm : VmOK aim E vm) (hl : VmasUser l) :
    GrantsSole aim l start stop prot { vm with k := vm.k.kmalloc.2 } := by
  intro ha hw v hv va hh ho hc
  have hpos := owns_le_spaceRefs (userCell_vpn ((hl v hv).page hh.low hh.high)) ho
  obtain ⟨hok, hsp⟩ := hvm.kern.kmalloc
  exact hsp.sole hok (fun _ => le_rfl) (by dsimp only at hpos ⊢; omega) (h ha hw v hv va hh ho hc)

/-- **The protecting loop.** -/
theorem VmOK.mprotectLoop (h : VmOK aim E vm) (hl : VmasUser l) (hg : GrantsSole aim l start stop prot vm) :
    Sound aim E vm.k (mprotectLoop start stop prot l vm).2.2 := by
  refine (mprotectLoop_rel (Sound.chains aim E fun _ h hg => hg.kmalloc h hl)
    (fun w hw va hh vm h hg => ?_) vm h hg).1
  have hc : UserCell 1 (vpnOf va) := userCell_vpn ((hl w hw).page hh.low hh.high)
  exact ⟨h.setprotFrom hc (mprotectPte_nofree _) (mprotectPte_cow _) fun ha hwr ho hcow =>
    hg ha (mprotectPte_writable hwr) w hw va hh ho hcow, hg.setprotFrom h.wf hc⟩

theorem VmOK.mprotect (h : VmOK aim E ⟨k, p.as⟩) (hp : UserOK p)
    (hg : addr % 4096 = 0 → GrantsSole aim p.vmas addr (pageUp (add64 addr len)) prot ⟨k, p.as⟩) :
    Sound aim E k ⟨(vmaMprotect k p addr len prot).k, (vmaMprotect k p addr len prot).p.as⟩ := by
  unfold vmaMprotect
  dsimp only
  split
  · exact .refl h
  rename_i ha
  split
  · exact .refl h
  split
  · exact .refl h
  split
  · exact .refl h
  · exact h.mprotectLoop hp.vmas (hg (not_not.1 ha))

/-! ## New mappings -/

theorem VmOK.insert (h : VmOK aim E ⟨k, p.as⟩) (addr len prot flags : ℕ) :
    Sound aim E k ⟨(mmapInsert k p addr len prot flags).k, (mmapInsert k p addr len prot flags).p.as⟩ := by
  have hi := vmaInsert_idle k p.vmas addr (add64 addr len) prot flags
  unfold mmapInsert
  split
  · rename_i vmas k' hins
    rw [hins] at hi
    exact h.idle hi
  · rename_i k' hins
    rw [hins] at hi
    exact h.idle hi

theorem VmOK.vmaMmap (h : VmOK aim E ⟨k, p.as⟩) (hp : UserOK p)
    (hr : len ≠ 0 → (protWrite prot && protExec prot) = false → mapFixed flags → addr % 4096 = 0 →
      Releases aim p.vmas addr (pageUp (add64 addr (pageUp len))) ⟨k, p.as⟩) :
    Sound aim E k ⟨(vmaMmap k p addr len prot flags).k, (vmaMmap k p addr len prot flags).p.as⟩ := by
  have hend := vmaMmap_cases k p addr len prot flags
  generalize NeoOS.vmaMmap k p addr len prot flags = r at hend
  cases hend with
  | refused err => exact .refl h
  | fixed hlen hwx hf ha =>
    have hm := h.munmap hp (hr hlen hwx hf)
    exact hm.trans (hm.ok.insert addr (pageUp len) prot flags)
  | cursor hlen hwx hf hlim =>
    exact VmOK.insert (p := { p with mmapNext := add64 p.mmapNext (pageUp len) }) h _ _ _ _

/-! ## Device mappings -/

theorem own_phys (prot f x : ℕ) : own { physPte prot with frame := f, present := true } x = 0 := own_not rfl x

theorem VmOK.mapDevice (h : VmOK aim E vm) (hc : UserCell 1 (vpnOf va))
    (ho : (vm.as.ent 1 (vpnOf va)).owns = false) (hd : aim.device f) (prot : ℕ) :
    Sound aim E vm.k (vm.mapInto va f (physPte prot)).2 := by
  obtain ⟨hsp, hok⟩ := VmOK.mapInto (E := E) (f := f) (e := physPte prot) hc
    (h.congr fun x => by rw [own_phys, add_zero]) ⟨nofun, fun _ => ⟨rfl, hd⟩, fun _ => nofun⟩
  refine ⟨hok.congr fun x => ?_, hsp.mono fun x => Nat.le_add_right _ _⟩
  rw [own_phys, own_not ho, ite_self, add_zero]

/-- The leaves outside the pages `i` to `m` are as they were. -/
def OnlyPages (addr i m : ℕ) (as as' : AddrSpace) : Prop :=
  ∀ x, (∀ j, i ≤ j → j < m → x ≠ vpnOf (addr + 4096 * j)) → as'.ent 1 x = as.ent 1 x

/-- **The mapping loop** of a device mapping. Its pages own nothing, before and after; a
page it did not get to is as it was. -/
theorem VmOK.mapPhysLoop (prot n : ℕ) : ∀ i vm, VmOK aim E vm →
    (∀ j, i ≤ j → j < i + n → UserCell 1 (vpnOf (addr + 4096 * j)) ∧
      aim.device (frameField (add64 phys (4096 * j)))) →
    (∀ x, InRange start stop x → (vm.as.ent 1 x).owns = false) →
    (∀ j, i ≤ j → j < i + n → InRange start stop (vpnOf (addr + 4096 * j))) →
    Sound aim E vm.k (NeoOS.mapPhysLoop addr phys (physPte prot) n i vm).2 ∧ (∀ x, InRange start stop x →
        ((NeoOS.mapPhysLoop addr phys (physPte prot) n i vm).2.as.ent 1 x).owns = false) ∧
      ∀ m, (NeoOS.mapPhysLoop addr phys (physPte prot) n i vm).1 = some m →
        OnlyPages addr i m vm.as (NeoOS.mapPhysLoop addr phys (physPte prot) n i vm).2.as := by
  induction n with
  | zero => intro i vm h _ ho _; exact ⟨.refl h, ho, nofun⟩
  | succ n ih =>
    intro i vm h hu ho hin
    obtain ⟨hc, hd⟩ := hu i le_rfl (by omega)
    have hr := hin i le_rfl (by omega)
    have hs := h.mapDevice hc (ho _ hr) hd prot
    obtain ⟨-, hother, hself⟩ := mapInto_leaf h.wf hc (frameField (add64 phys (4096 * i))) (physPte prot)
    unfold NeoOS.mapPhysLoop
    dsimp only
    generalize vm.mapInto (addr + 4096 * i) (frameField (add64 phys (4096 * i))) (physPte prot) = r at hs hother hself
    have ho' : ∀ x, InRange start stop x → (r.2.as.ent 1 x).owns = false := fun x hx => by
      by_cases he : x = vpnOf (addr + 4096 * i)
      · subst he
        rw [hself]
        split
        · rfl
        · exact ho _ hx
      · rw [hother x he]; exact ho x hx
    split
    · obtain ⟨h1, h2, h3⟩ := ih (i + 1) r.2 hs.ok (fun j hj hj' => hu j (by omega) (by omega)) ho'
        fun j hj hj' => hin j (by omega) (by omega)
      refine ⟨hs.trans h1, h2, fun m hm x hx => ?_⟩
      have him : i < m := (mapPhysLoop_failed n (i + 1) r.2 hm).1
      exact (h3 m hm x fun j hj hj' => hx j (by omega) hj').trans (hother x (hx i le_rfl him))
    · rename_i hfail
      refine ⟨hs, ho', fun m hm x _ => ?_⟩
      cases hm
      by_cases he : x = vpnOf (addr + 4096 * i)
      · subst he
        rw [hself, if_neg hfail]
      · exact hother x he

theorem userCell_of_range (h1 : userLow ≤ start) (h2 : stop ≤ userAddrLimit)
    (hr : InRange start stop x) : UserCell 1 x := by
  have hlt : x * 4096 < userAddrLimit := by have := hr.2; omega
  have hv : vpnOf (x * 4096) = x := by rw [vpnOf_eq hlt, Nat.mul_div_cancel _ (by decide)]
  have hc := userCell_vpn (userPage_of_range (by have := hr.1; omega) hlt)
  rwa [hv] at hc

theorem inRange_vpnOf (h0 : start % 4096 = 0) (h1 : start ≤ va) (h2 : va < stop) (h3 : stop ≤ userAddrLimit) :
    InRange start stop (vpnOf va) := by
  rw [vpnOf_eq (by omega)]
  unfold InRange
  omega

/-- There is nothing to release in a range without frames. -/
theorem Releases.blank (h0 : start % 4096 = 0) (h1 : stop % 4096 = 0) (h2 : stop ≤ userAddrLimit)
    (hb : ∀ x, InRange start stop x → vm.as.ent 1 x = Pte.zero) : Releases aim l start stop vm := by
  have hz : ∀ v va, Hits v start stop va → vm.as.ent 1 (vpnOf va) = Pte.zero := fun v va hh =>
    hb _ (inRange_vpnOf h0 hh.first hh.last h2)
  refine ⟨fun v _ _ va hh => by rw [hz v va hh]; rfl, fun _ v _ _ va hh => by rw [hz v va hh]; rfl, fun _ h => ?_⟩
  refine absurd (card_eq_zero.2 (filter_eq_empty_iff.2 fun x hx => ?_)) h
  rw [hb x (by rw [mem_Ico] at hx; unfold InRange; omega)]
  decide

theorem VmOK.unmapPages {start : ℕ} (stop : ℕ) (h : VmOK aim E vm) (h0 : start % 4096 = 0) (h1 : userLow ≤ start)
    (h2 : stop ≤ userAddrLimit) (ho : ∀ x, InRange start stop x → (vm.as.ent 1 x).owns = false) :
    Sound aim E vm.k (unmapRange vm start stop false) := by
  refine ((Sound.chains aim E (P := fun vm => ∀ x, InRange start stop x → (vm.as.ent 1 x).owns = false)
    fun _ _ h => h).pages (fun va ha hb vm h ho => ?_) vm h ho).1
  have hr := inRange_vpnOf h0 ha hb h2
  have hc := userCell_of_range h1 h2 hr
  refine ⟨h.unmapFrom hc nofun (fun _ _ => ho _ hr) fun _ hown => ?_, fun x hx => ?_⟩
  · rw [ho _ hr] at hown; cases hown
  · rw [unmapFrom_eq h.wf hc]
    split
    · by_cases he : x = vpnOf va
      · subst he
        exact congrArg Pte.owns put_self
      · exact (congrArg Pte.owns (put_other fun h => he h.2)).trans (ho x hx)
    · exact ho x hx

theorem UserOK.cursorRange (hp : UserOK p) (hlim : CursorRoom p.mmapNext (pageUp len)) {j : ℕ}
    (hj : j < pageUp len / 4096) :
    InRange p.mmapNext (p.mmapNext + pageUp len) (vpnOf (p.mmapNext + 4096 * j)) := by
  obtain ⟨-, hle⟩ := cursor_room (pageUp_lt len) hp.limit hlim
  exact inRange_vpnOf hp.aligned (Nat.le_add_right _ _) (by omega) (hp.cursor hle).2

/-- **A device mapping** at pages that hold no frame. -/
theorem VmOK.mapPhys (h : VmOK aim E ⟨k, p.as⟩) (hp : UserOK p)
    (hfree : ∀ x, InRange p.mmapNext (p.mmapNext + pageUp len) x → (p.as.ent 1 x).hasFrame = false)
    (hdev : ∀ j < pageUp len / 4096, aim.device (frameField (add64 phys (4096 * j)))) :
    Sound aim E k ⟨(vmaMapPhys k p phys len prot).k, (vmaMapPhys k p phys len prot).p.as⟩ := by
  have hend := vmaMapPhys_cases k p phys len prot
  have hins := vmaInsert_idle k p.vmas p.mmapNext (add64 p.mmapNext (pageUp len)) prot 0x41
  generalize vmaMapPhys k p phys len prot = r at hend
  have hown : ∀ x, InRange p.mmapNext (p.mmapNext + pageUp len) x → (p.as.ent 1 x).owns = false :=
    fun x hx => by unfold Pte.owns; rw [hfree x hx]; rfl
  have hloop := fun k' (h' : VmOK aim E ⟨k', p.as⟩) hlim =>
    VmOK.mapPhysLoop prot (pageUp len / 4096) 0 ⟨k', p.as⟩ h'
      (fun j _ hj => ⟨userCell_vpn (hp.cursorPage hlim (by omega)), hdev j (by omega)⟩) hown
      fun j _ hj => hp.cursorRange hlim (by omega)
  cases hend with
  | refused err => exact .refl h
  | noNode hi =>
    rw [hi] at hins
    exact h.idle hins
  | mapped hlen hx hlim hi hl =>
    rename_i k' vmas vm
    rw [hi] at hins
    obtain ⟨hs, -, -⟩ := hloop k' (h.idle hins).ok hlim
    rw [hl] at hs
    exact (h.idle hins).trans hs
  | rolledBack hlen hx hlim hi hl hback =>
    rename_i k' vmas i vm vm'
    rw [hi] at hins
    obtain ⟨hs, hno, honly⟩ := hloop k' (h.idle hins).ok hlim
    have hib := mapPhysLoop_failed (pageUp len / 4096) 0 ⟨k', p.as⟩ (e := physPte prot) (by rw [hl])
    rw [hl] at hs hno honly
    obtain ⟨hadd, hle⟩ := cursor_room (pageUp_lt len) hp.limit hlim
    obtain ⟨hlow, hhigh⟩ := hp.cursor hle
    have h0 := hp.aligned
    -- the pages mapped so far are unmapped: the range is blank again
    have hroll : vm' = unmapRange vm p.mmapNext (p.mmapNext + 4096 * i) false := by
      rw [hback]
      unfold unmapRange Vm.pages
      rw [List.foldl_map, show (p.mmapNext + 4096 * i - p.mmapNext + 4095) / 4096 = i by omega]
    have hu := hs.ok.unmapPages (p.mmapNext + 4096 * i) h0 hlow (by omega) fun x hx =>
      hno x ⟨hx.1, by have := hx.2; omega⟩
    have hed := unmapRange_edited p.mmapNext (p.mmapNext + 4096 * i) hs.ok.wf h0 hlow (by omega) false
    rw [← hroll] at hu hed
    have hblank : ∀ x, InRange p.mmapNext (p.mmapNext + pageUp len) x → vm'.as.ent 1 x = Pte.zero := by
      intro x hx
      have hc := userCell_of_range hlow hhigh hx
      by_cases hf : (vm'.as.ent 1 x).hasFrame
      · exfalso
        by_cases hr : InRange p.mmapNext (p.mmapNext + 4096 * i) x
        · by_cases hf' : (vm.as.ent 1 x).hasFrame
          · rw [hed.inside hc hr hf'] at hf; cases hf
          · rw [hed.noFrame hc (Bool.not_eq_true _ ▸ hf')] at hf; exact hf' hf
        · rw [hed.outside hc hr, honly i rfl x fun j _ hj he => hr ?_, hfree x hx] at hf
          · cases hf
          · rw [he]
            exact inRange_vpnOf h0 (Nat.le_add_right _ _) (by omega) (by omega)
      · exact hu.ok.wf.blank x hc (Bool.not_eq_true _ ▸ hf)
    have hstop : pageUp (add64 p.mmapNext (pageUp len)) = p.mmapNext + pageUp len := by
      rw [hadd]
      exact pageUp_of_aligned (hp.cursor_aligned len) (lt_of_le_of_lt hhigh (by decide))
    have hm := VmOK.munmap (p := ⟨vm'.as, vmas, add64 p.mmapNext (pageUp len)⟩) hu.ok
      (hp.physInsert hlim hi vm'.as) fun _ => by
        rw [hstop]
        exact .blank h0 (hp.cursor_aligned len) hhigh hblank
    exact (h.idle hins).trans (hs.trans (hu.trans hm))

end NeoOS
