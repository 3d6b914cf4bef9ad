import NeoOS.Proof.Leaves
import NeoOS.Proof.UserStep

/-!
# The right to write

The right to write to a page is kept twice, in its mapping's protection and in its
leaf: `WriteRight e` says that the leaf lets the process write, at once or after a
copy-on-write fault. `PermOK` is the agreement: such a leaf is not executable, and
the mapping that covers it has `PROT_WRITE`.

Most steps only take rights away (`Weaker`). Rights are given by a demand fault, by
a device mapping and by `mprotect`; the last also keeps the copy-on-write mark it
finds, and there the agreement needs a condition.
-/

namespace NeoOS

open List

variable {as as' : AddrSpace} {l l' : List Vma} {vm vm' : Vm} {e e' e'' : Pte} {w v : Vma}
  {start stop prot flags b x : ℕ} {r : List Vma × Vm} {k : Kernel}

/-- The entry lets its process write, now or after a copy-on-write fault. -/
def WriteRight (e : Pte) : Prop := e.writable = true ∨ (e.present ∧ e.cow)

/-- What holds of the leaves whatever the mappings are. -/
structure LeafOK (e : Pte) : Prop where
  nx : WriteRight e → e.nx
  dev : e.nofree → e.cow = false

/-- What a mapping says about the leaves it covers. -/
structure Grants (as : AddrSpace) (w : Vma) : Prop where
  wx : (protWrite w.prot && protExec w.prot) = false
  write : ∀ x, UserCell 1 x → InRange w.start w.stop x → WriteRight (as.ent 1 x) → protWrite w.prot

/-- **The agreement** between the leaves and the mappings. -/
structure PermOK (as : AddrSpace) (l : List Vma) : Prop where
  leaf : ∀ x, UserCell 1 x → LeafOK (as.ent 1 x)
  vma : ∀ w ∈ l, Grants as w

theorem writeRight_zero : ¬ WriteRight Pte.zero := by rintro (h | h) <;> simp [Pte.zero] at h

theorem leafOK_zero : LeafOK Pte.zero := ⟨fun h => absurd h writeRight_zero, fun _ => rfl⟩

/-! ## Taking rights away -/

/-- `e'` gives no right that `e` does not give. -/
structure Weaker (e' e : Pte) : Prop where
  right : WriteRight e' → WriteRight e
  leaf : LeafOK e → LeafOK e'

theorem Weaker.refl (e : Pte) : Weaker e e := ⟨id, id⟩

theorem Weaker.trans (h1 : Weaker e'' e') (h2 : Weaker e' e) : Weaker e'' e :=
  ⟨fun h => h2.right (h1.right h), fun h => h1.leaf (h2.leaf h)⟩

theorem Weaker.zero (e : Pte) : Weaker Pte.zero e := ⟨fun h => absurd h writeRight_zero, fun _ => leafOK_zero⟩

theorem Grants.congr (h : Grants as w) (hx : ∀ x, UserCell 1 x → InRange w.start w.stop x →
    Weaker (as'.ent 1 x) (as.ent 1 x)) : Grants as' w :=
  ⟨h.wx, fun x hc hr hw => h.write x hc hr ((hx x hc hr).right hw)⟩

theorem PermOK.weaken (h : PermOK as l) (hx : ∀ x, UserCell 1 x → Weaker (as'.ent 1 x) (as.ent 1 x)) : PermOK as' l :=
  ⟨fun x hc => (hx x hc).leaf (h.leaf x hc), fun w hw => (h.vma w hw).congr fun x hc _ => hx x hc⟩

theorem Grants.cut (h : Grants as v) (hc : Cut w v) (hp : w.prot = v.prot) : Grants as w :=
  ⟨by rw [hp]; exact h.wx, fun x hx hr hw => by
    rw [hp]
    exact h.write x hx ⟨hc.start.trans hr.1, lt_of_lt_of_le hr.2 hc.stop⟩ hw⟩

theorem PermOK.pieces (h : PermOK as l) (hl : ∀ w ∈ l', ∃ v ∈ l, Cut w v ∧ w.prot = v.prot) : PermOK as l' :=
  ⟨h.leaf, fun w hw => let ⟨v, hv, hc, hp⟩ := hl w hw; (h.vma v hv).cut hc hp⟩

/-! ## `munmap` -/

/-- Leaves are kept or cleared. -/
def Cleared (vm vm' : Vm) : Prop := WF vm.as → WF vm'.as ∧
  ∀ x, UserCell 1 x → vm'.as.ent 1 x = vm.as.ent 1 x ∨ vm'.as.ent 1 x = Pte.zero

theorem Cleared.chains : Chains Cleared where
  refl _ hwf := ⟨hwf, fun _ _ => .inl rfl⟩
  trans _ _ _ h1 h2 hwf := by
    obtain ⟨w1, l1⟩ := h1 hwf
    obtain ⟨w2, l2⟩ := h2 w1
    refine ⟨w2, fun x hc => ?_⟩
    rcases l2 x hc with he | he
    · rw [he]; exact l1 x hc
    · exact .inr he
  kmalloc _ hwf := ⟨hwf, fun _ _ => .inl rfl⟩

theorem Cleared.unmapFrom {va : ℕ} (hu : UserPage (vpnOf va)) (free : Bool) (vm : Vm) : Cleared vm (vm.unmapFrom va free) := by
  intro hwf
  have hc := userCell_vpn hu
  have hf := unmapFrom_edits free
  refine ⟨hf.wf hwf hc, fun x _ => ?_⟩
  rw [hf.step vm va hwf hc]
  split
  · by_cases hx : x = vpnOf va
    · subst hx; right; exact AddrSpace.put_self
    · left; exact AddrSpace.put_other fun h => hx h.2
  · exact .inl rfl

theorem Cleared.weaker (h : Cleared vm vm') (hwf : WF vm.as) (hc : UserCell 1 x) :
    Weaker (vm'.as.ent 1 x) (vm.as.ent 1 x) := by
  rcases (h hwf).2 x hc with he | he
  · rw [he]; exact .refl _
  · rw [he]; exact .zero _

theorem munmapLoop_cleared (hu : VmasUser l) : Cleared vm (munmapLoop start stop l vm).2.2 :=
  munmapLoop_rel Cleared.chains (fun v hv _ hh vm =>
    Cleared.unmapFrom ((hu v hv).page hh.low hh.high) _ vm) vm

theorem Cleared.blank (h : Cleared vm vm') (hwf : WF vm.as) (hc : UserCell 1 x)
    (hz : vm.as.ent 1 x = Pte.zero) : vm'.as.ent 1 x = Pte.zero := by
  rcases (h hwf).2 x hc with he | he
  · rw [he, hz]
  · exact he

theorem unmapRange_hits (hwf : WF vm.as) (hs : start % 4096 = 0) (hv : VmaOK v) (hu : VmaUser v)
    (free : Bool) : WF (unmapRange vm (max v.start start) (min v.stop stop) free).as ∧
      ∀ x, UserCell 1 x → InRange v.start v.stop x → InRange start stop x →
        (unmapRange vm (max v.start start) (min v.stop stop) free).as.ent 1 x = Pte.zero := by
  have hva := hv.start_aligned
  have hed := unmapRange_edited (max v.start start) (min v.stop stop) hwf
    (by omega) (hu.low.trans (le_max_left _ _)) ((min_le_left _ _).trans hu.high) free
  refine ⟨hed.wf, fun x hc h1 h2 => ?_⟩
  have hr : InRange (max v.start start) (min v.stop stop) x := by unfold InRange at *; omega
  by_cases hf : (vm.as.ent 1 x).hasFrame
  · exact hed.inside hc hr hf
  · rw [Bool.not_eq_true] at hf
    rw [hed.noFrame hc hf, hwf.blank x hc hf]

/-- **What `munmap` covers it clears**, when it does not run out of memory. -/
theorem munmapLoop_clears (hs : start % 4096 = 0) (h : VmasFrom b l) (hu : VmasUser l)
    (hwf : WF vm.as) (hok : (munmapLoop start stop l vm).1) :
    ∀ v ∈ l, ∀ x, UserCell 1 x → InRange v.start v.stop x → InRange start stop x →
      (munmapLoop start stop l vm).2.2.as.ent 1 x = Pte.zero := by
  intro w hw x hc h1 h2
  fun_induction munmapLoop start stop l vm generalizing b with
  | case1 => exact absurd hw not_mem_nil
  | case2 =>
    -- the mapping ends before the range
    rename_i v vs vm hsk r ih
    rcases mem_cons.1 hw with rfl | hw
    · unfold InRange at h1 h2; omega
    · exact ih h.2.2 hu.uncons.2 hwf hok hw
  | case3 =>
    -- it begins behind the range, and so do all that follow
    rename_i v vs vm hsk hge
    have hne := h.2.1.nonempty
    rcases mem_cons.1 hw with rfl | hw
    · unfold InRange at h1 h2; omega
    · have := h.2.2.le_start w hw; unfold InRange at h1 h2; omega
  | case4 =>
    rename_i v vs vm hsk hge vm' hmid r vm'' hk
    rcases mem_cons.1 hw with rfl | hw
    · exact (unmapRange_hits hwf hs h.2.1 hu.uncons.1 _).2 x hc h1 h2
    · have := h.2.2.le_start w hw; unfold InRange at h1 h2; omega
  | case5 => exact absurd hok Bool.false_ne_true
  | case6 =>
    rename_i v vs vm hsk hge vm' hmid hhead r ih
    obtain ⟨hwf', hz⟩ := unmapRange_hits hwf hs h.2.1 hu.uncons.1 (!vmaPhys v.flags)
    rcases mem_cons.1 hw with rfl | hw
    · exact (munmapLoop_cleared hu.uncons.2).blank hwf' hc (hz x hc h1 h2)
    · exact ih h.2.2 hu.uncons.2 hwf' hok hw
  | case7 =>
    rename_i v vs vm hsk hge vm' hmid hhead htail
    rcases mem_cons.1 hw with rfl | hw
    · exact (unmapRange_hits hwf hs h.2.1 hu.uncons.1 _).2 x hc h1 h2
    · have := h.2.2.le_start w hw; unfold InRange at h1 h2; omega
  | case8 =>
    rename_i v vs vm hsk hge vm' hmid hhead htail ih
    obtain ⟨hwf', hz⟩ := unmapRange_hits hwf hs h.2.1 hu.uncons.1 (!vmaPhys v.flags)
    rcases mem_cons.1 hw with rfl | hw
    · exact (munmapLoop_cleared hu.uncons.2).blank hwf' hc (hz x hc h1 h2)
    · exact ih h.2.2 hu.uncons.2 hwf' hok hw

/-! ## `mprotect` -/

/-- The right a leaf has after `mprotect` is that of the protection, when the page has no
copy-on-write mark that is kept. -/
theorem setprotPte_right (h : WriteRight (Vm.setprotPte e (mprotectPte prot)))
    (hcow : prot ≠ 0 → protWrite prot = false → e.cow = false) : protWrite prot := by
  unfold mprotectPte at h
  split at h
  · rcases h with h | h <;> simp [Vm.setprotPte, Pte.zero] at h
  · rename_i hp
    rcases h with h | h <;> simp [Vm.setprotPte, protPte, Pte.zero] at h
    · exact h.1
    · by_contra hw
      rw [hcow hp (Bool.not_eq_true _ ▸ hw)] at h
      exact absurd h (by decide)

/-- `mprotect` to `prot` finds no copy-on-write page it would leave writable. -/
def NoCowLeft (as : AddrSpace) (prot start stop : ℕ) (w : Vma) : Prop :=
  prot ≠ 0 → protWrite prot = false → ∀ x, UserCell 1 x → InRange w.start w.stop x →
    InRange start stop x → (as.ent 1 x).hasFrame → (as.ent 1 x).cow = false

theorem setprotPte_leafOK (hwx : (protWrite prot && protExec prot) = false) (he : LeafOK e)
    (hcow : prot ≠ 0 → protWrite prot = false → e.cow = false) : LeafOK (Vm.setprotPte e (mprotectPte prot)) := by
  refine ⟨fun h => ?_, fun h => ?_⟩
  · have hw := setprotPte_right h hcow
    have hp : prot ≠ 0 := by rintro rfl; exact absurd hw (by decide)
    have hx : protExec prot = false := by rw [hw, Bool.true_and] at hwx; exact hwx
    simp [Vm.setprotPte, mprotectPte, hp, protPte, hx]
  · unfold mprotectPte Vm.setprotPte at h ⊢
    split <;> rename_i hp
    · simp [hp, Pte.zero] at h ⊢; exact he.dev h
    · simp [hp, protPte, Pte.zero] at h ⊢; exact he.dev h

theorem setprotRange_grants {lo hi : ℕ} (flags : ℕ) (hwf : WF vm.as) (hal : lo % 4096 = 0) (h1 : userLow ≤ lo)
    (h2 : hi ≤ userAddrLimit) (hwx : (protWrite prot && protExec prot) = false)
    (hleaf : ∀ x, UserCell 1 x → LeafOK (vm.as.ent 1 x))
    (hcow : prot ≠ 0 → protWrite prot = false → ∀ x, UserCell 1 x → InRange lo hi x →
      (vm.as.ent 1 x).hasFrame → (vm.as.ent 1 x).cow = false) :
    (∀ x, UserCell 1 x → LeafOK ((setprotRange vm lo hi (mprotectPte prot)).as.ent 1 x)) ∧
      Grants (setprotRange vm lo hi (mprotectPte prot)).as ⟨lo, hi, prot, flags⟩ := by
  have hed := setprotRange_edited hwf hal h1 h2 (mprotectPte prot)
  refine ⟨fun x hc => ?_, hwx, fun x hc hr hw => ?_⟩
  · rw [hed.leaf x hc]
    split
    · rename_i h
      exact setprotPte_leafOK hwx (hleaf x hc) fun hp hw => hcow hp hw x hc h.1 h.2
    · exact hleaf x hc
  · by_cases hf : (vm.as.ent 1 x).hasFrame
    · rw [hed.inside hc hr hf] at hw
      exact setprotPte_right hw fun hp hn => hcow hp hn x hc hr hf
    · rw [Bool.not_eq_true] at hf
      rw [hed.noFrame hc hf, hwf.blank x hc hf] at hw
      exact absurd hw writeRight_zero

/-- What is carried along the list: the mappings from `b` on agree with the leaves,
and the leaves below `b` are those of `vm`. -/
structure ProtOK (b : ℕ) (vm : Vm) (r : List Vma × Vm) : Prop where
  wf : WF r.2.as
  perm : PermOK r.2.as r.1
  frame : ∀ x, UserCell 1 x → x * 4096 < b → r.2.as.ent 1 x = vm.as.ent 1 x

theorem ProtOK.cons (h : ProtOK b vm r) (hw : Grants vm.as w) (hb : w.stop ≤ b) : ProtOK b vm (w :: r.1, r.2) := by
  refine ⟨h.wf, ⟨h.perm.leaf, forall_mem_cons.2 ⟨hw.congr fun x hc hr => ?_, h.perm.vma⟩⟩, h.frame⟩
  rw [h.frame x hc (lt_of_lt_of_le hr.2 hb)]
  exact .refl _

theorem ProtOK.mono {c : ℕ} (h : ProtOK b vm r) (hc : c ≤ b) : ProtOK c vm r :=
  ⟨h.wf, h.perm, fun x hx hlt => h.frame x hx (lt_of_lt_of_le hlt hc)⟩

theorem ProtOK.after {vm₀ : Vm} (h : ProtOK b vm r)
    (hf : ∀ x, UserCell 1 x → x * 4096 < b → vm.as.ent 1 x = vm₀.as.ent 1 x) : ProtOK b vm₀ r :=
  ⟨h.wf, h.perm, fun x hx hlt => (h.frame x hx hlt).trans (hf x hx hlt)⟩

theorem protectPiece_ok {vs : List Vma} {rest : Vm → Bool × List Vma × Vm} (vm : Vm) (hwf : WF vm.as)
    (hv : VmaOK v) (hu : VmaUser v) (hvs : VmasFrom v.stop vs) (he : stop % 4096 = 0)
    (hlt : v.start < stop) (hst : start ≤ v.start) (hp : PermOK vm.as (v :: vs))
    (hwx : (protWrite prot && protExec prot) = false) (hcow : NoCowLeft vm.as prot start stop v)
    (hrest : ∀ vm', WF vm'.as → PermOK vm'.as vs → (∀ x, UserCell 1 x → v.stop ≤ x * 4096 → vm'.as.ent 1 x = vm.as.ent 1 x) →
      ProtOK v.stop vm' (rest vm').2) : ProtOK v.start vm (protectPiece stop prot v vs vm rest).2 := by
  obtain ⟨hg, hgs⟩ := forall_mem_cons.1 hp.vma
  have hal := hv.start_aligned
  have hne := hv.nonempty
  have hedit : ∀ (vm₁ : Vm) (hi : ℕ), vm₁.as = vm.as → hi ≤ v.stop → hi ≤ stop →
      WF (setprotRange vm₁ v.start hi (mprotectPte prot)).as ∧
      (∀ x, UserCell 1 x → ¬ InRange v.start hi x →
        (setprotRange vm₁ v.start hi (mprotectPte prot)).as.ent 1 x = vm.as.ent 1 x) ∧
      (∀ x, UserCell 1 x → LeafOK ((setprotRange vm₁ v.start hi (mprotectPte prot)).as.ent 1 x)) ∧
      Grants (setprotRange vm₁ v.start hi (mprotectPte prot)).as ⟨v.start, hi, prot, v.flags⟩ := by
    intro vm₁ hi has h1 h2
    rw [← has] at hwf
    have hed := setprotRange_edited hwf hal hu.low (h1.trans hu.high) (mprotectPte prot)
    have hgr := setprotRange_grants v.flags hwf hal hu.low (h1.trans hu.high) hwx (by rw [has]; exact hp.leaf) (by
        rw [has]
        exact fun hp0 hw x hc hr hf => hcow hp0 hw x hc ⟨hr.1, lt_of_lt_of_le hr.2 h1⟩
          ⟨hst.trans hr.1, lt_of_lt_of_le hr.2 h2⟩ hf)
    exact ⟨hed.wf, fun x hc hr => by rw [hed.outside hc hr, has], hgr⟩
  unfold protectPiece
  split
  · rename_i hgt
    dsimp only
    split
    · -- the trailing piece keeps its protection and its leaves
      obtain ⟨hwf', hout, hleaf, hnew⟩ := hedit ⟨vm.k.kmalloc.2, vm.as⟩ stop rfl (le_of_lt hgt) le_rfl
      have hkeep : ∀ u : Vma, Grants vm.as u → stop ≤ u.start →
          Grants (setprotRange ⟨vm.k.kmalloc.2, vm.as⟩ v.start stop (mprotectPte prot)).as u :=
        fun u hu' hle => hu'.congr fun x hc hr => by
          rw [hout x hc fun h => by have := hr.1; have := h.2; omega]
          exact .refl _
      refine ⟨hwf', ⟨hleaf, forall_mem_cons.2 ⟨hnew, forall_mem_cons.2 ⟨?_, fun u hu' => ?_⟩⟩⟩,
        fun x hc hx => hout x hc fun h => by have := h.1; omega⟩
      · refine hkeep { v with start := stop } ⟨hg.wx, fun x hc hr => hg.write x hc ⟨?_, hr.2⟩⟩ le_rfl
        exact hlt.le.trans hr.1
      · exact hkeep u (hgs u hu') (le_of_lt (lt_of_lt_of_le hgt (hvs.le_start u hu')))
    · exact ⟨hwf, hp, fun _ _ _ => rfl⟩
  · obtain ⟨hwf', hout, hleaf, hnew⟩ := hedit vm v.stop rfl le_rfl (by omega)
    have hvs' : PermOK (setprotRange vm v.start v.stop (mprotectPte prot)).as vs :=
      ⟨hleaf, fun u hu' => (hgs u hu').congr fun x hc hr => by
        rw [hout x hc fun h => by have := hvs.le_start u hu'; have := hr.1; have := h.2; omega]
        exact .refl _⟩
    have hr := hrest _ hwf' hvs' fun x hc hx => hout x hc fun h => by have := h.2; omega
    have hcons := (hr.cons hnew le_rfl).mono hne.le
    exact hcons.after fun x hc hx => hout x hc fun h => by have := h.1; omega

theorem NoCowLeft.congr (h : NoCowLeft as prot start stop w)
    (hx : ∀ x, UserCell 1 x → InRange w.start w.stop x → as'.ent 1 x = as.ent 1 x) :
    NoCowLeft as' prot start stop w := by
  intro hp hw x hc hr hr' hf
  rw [hx x hc hr] at hf ⊢
  exact h hp hw x hc hr hr' hf

/-- **`mprotect` keeps the agreement** when it finds no copy-on-write page it would
leave writable, also when it runs out of memory half way. -/
theorem mprotectLoop_ok (vm : Vm) (hs : start % 4096 = 0) (he : stop % 4096 = 0) (hlt : start < stop)
    (h : VmasFrom b l) (hu : VmasUser l) (hwf : WF vm.as) (hp : PermOK vm.as l)
    (hwx : (protWrite prot && protExec prot) = false) (hcow : ∀ w ∈ l, NoCowLeft vm.as prot start stop w) :
    ProtOK b vm (mprotectLoop start stop prot l vm).2 := by
  induction l generalizing b vm with
  | nil => exact ⟨hwf, hp, fun _ _ _ => rfl⟩
  | cons v vs ih =>
    obtain ⟨hb, hv, hvs⟩ := h
    obtain ⟨hu1, hu2⟩ := hu.uncons
    obtain ⟨hg, hgs⟩ := forall_mem_cons.1 hp.vma
    obtain ⟨hc1, hc2⟩ := forall_mem_cons.1 hcow
    have hne := hv.nonempty
    -- the mappings behind `v`, from any state that has their leaves
    have hrest : ∀ vm', WF vm'.as → PermOK vm'.as vs → (∀ x, UserCell 1 x → v.stop ≤ x * 4096 →
      vm'.as.ent 1 x = vm.as.ent 1 x) →
        ProtOK v.stop vm' (mprotectLoop start stop prot vs vm').2 := fun vm' hwf' hp' hsame =>
      ih _ hvs hu2 hwf' hp' fun w hw => (hc2 w hw).congr fun x hx hr =>
        hsame x hx ((hvs.le_start w hw).trans hr.1)
    unfold mprotectLoop
    split
    · have hr := hrest vm hwf ⟨hp.leaf, hgs⟩ fun _ _ _ => rfl
      exact (hr.cons hg le_rfl).mono (hb.trans hne.le)
    split
    · exact ⟨hwf, hp, fun _ _ _ => rfl⟩
    rename_i h1 h2
    split
    · rename_i h3
      have hcut : Cut { v with start := start } v := ⟨h3.le, le_rfl, fun _ => by
        change start ≤ v.stop; omega, rfl⟩
      have hv' : VmaOK { v with start := start } := ⟨by change start < v.stop; omega, hs, hv.stop_aligned⟩
      dsimp only
      split
      · have hpiece := protectPiece_ok { vm with k := vm.k.kmalloc.2 }
          (v := { v with start := start }) hwf hv' (hu1.cut hcut) hvs he hlt
          le_rfl ⟨hp.leaf, forall_mem_cons.2 ⟨hg.cut hcut rfl, hgs⟩⟩ hwx
          (fun hp0 hw x hx hr hr' => hc1 hp0 hw x hx ⟨h3.le.trans hr.1, hr.2⟩ hr') hrest
        have hhead : Grants vm.as { v with stop := start } :=
          hg.cut ⟨le_rfl, by change start ≤ v.stop; omega, fun _ => h3.le, rfl⟩ rfl
        exact ((hpiece.cons hhead le_rfl).mono (hb.trans h3.le)).after fun _ _ _ => rfl
      · exact ⟨hwf, hp, fun _ _ _ => rfl⟩
    · exact (protectPiece_ok vm hwf hv hu1 hvs he (by omega) (by omega) hp hwx hc1 hrest).mono hb

/-! ## New mappings -/

/-- What a mapping of the list after `vma_insert` covers was covered before, or is the
new range. -/
theorem vmaInsert_covers (hins : (vmaInsert k l start stop prot flags).1 = some l')
    (hw : w ∈ l') (hr : InRange w.start w.stop x) :
    (∃ v ∈ l, InRange v.start v.stop x ∧ v.prot = w.prot ∧ v.flags = w.flags) ∨
      InRange start stop x ∧ w.prot = prot ∧ w.flags = flags := by
  rcases vmaInsert_mem hins hw with hm | ⟨c, s', rfl, hc, hs⟩
  · exact .inl ⟨w, hm, hr, rfl, rfl⟩
  obtain ⟨h1, h2⟩ := hr
  by_cases hlow : x * 4096 < start
  · rcases hc with rfl | hm
    · exact absurd h1 (not_le.2 hlow)
    · exact .inl ⟨_, hm, ⟨h1, hlow⟩, rfl, rfl⟩
  by_cases hhigh : x * 4096 < stop
  · exact .inr ⟨⟨not_lt.1 hlow, hhigh⟩, rfl, rfl⟩
  · rcases hs with rfl | hm
    · exact absurd h2 hhigh
    · exact .inl ⟨_, hm, ⟨not_lt.1 hhigh, h2⟩, rfl, rfl⟩

theorem PermOK.insert (h : PermOK as l) (hins : (vmaInsert k l start stop prot flags).1 = some l')
    (hwx : (protWrite prot && protExec prot) = false)
    (hnew : ∀ x, UserCell 1 x → InRange start stop x → WriteRight (as.ent 1 x) → protWrite prot)
    (hok : VmasFrom 0 l') : PermOK as l' := by
  refine ⟨h.leaf, fun w hw => ⟨?_, fun x hc hr hwr => ?_⟩⟩
  · have hr : InRange w.start w.stop (w.start / 4096) := by
      have := (hok.each w hw).start_aligned
      have := (hok.each w hw).nonempty
      unfold InRange; omega
    rcases vmaInsert_covers hins hw hr with ⟨v, hv, -, hp, -⟩ | ⟨-, hp, -⟩
    · rw [← hp]; exact (h.vma v hv).wx
    · rw [hp]; exact hwx
  · rcases vmaInsert_covers hins hw hr with ⟨v, hv, hr', hp, -⟩ | ⟨hr', hp, -⟩
    · rw [← hp]; exact (h.vma v hv).write x hc hr' hwr
    · rw [hp]; exact hnew x hc hr' hwr

end NeoOS
