import NeoOS.Proof.AccountCall
import NeoOS.Proof.Teardown

/-!
# The accounts across a fork

The page loop of `fork` gives the child one reference to each frame of the parent and
takes frames for the child's tables. `ForkOK` is what holds between two pages: the
child's accounts with the parent's references among those of everybody else, the
parent's leaves, and what is left to do: pages to share, tables to create, entries the
queue would have to take if the child were given up.

* `VmOK.fork`: how the accounts stand after `fork_task`.
-/

namespace NeoOS

open List AddrSpace
open Buddy (In)

variable {aim : Aim} {strict : Prop} {E O R : ℕ → ℕ} {k k' : Kernel} {p : Proc} {as : AddrSpace}
  {s : ForkSt} {vm vm' : Vm} {rest l : List ℕ} {N : Finset (ℕ × ℕ)} {e : Pte} {v f m n o : ℕ} {c : ℕ × ℕ}

/-! ## Sharing a page -/

theorem VmOK.share (h : VmOK aim E vm) (hf : 0 < E f) (hlt : vm.k.pmm.refcount f < 65535) :
    VmOK aim (fun x => E x + one f x) ⟨vm.k.share f, vm.as⟩ := by
  have h0 : 0 < vm.k.pmm.refcount f := by have := h.kern.held f; omega
  refine ⟨(h.kern.share (by omega) hlt).congr fun x => (add_assoc _ _ _).symm, h.leaves.wf, h.leaves.frames,
    h.leaves.dev, fun ha v hc ho hw => ?_⟩
  dsimp only at ho hw ⊢
  have h1 := h.leaves.sole ha v hc ho hw
  have h2 := h.kern.held (vm.as.ent 1 v).frame
  have h3 := owns_le_spaceRefs hc ho
  rw [share_refcount h.kern.pmm h0 hlt, one_of_ne, h1]
  rintro rfl
  omega

@[simp] theorem forkPte_owns (e : Pte) : (forkPte e).owns = e.owns := by
  unfold Pte.owns
  rw [forkPte_hasFrame, forkPte_nofree]

theorem own_forkPte (e : Pte) (f : ℕ) : own (forkPte e) f = own e f := by
  unfold own
  rw [forkPte_owns, forkPte_frame]

/-- **The parent's side of a shared page**: the leaf is not writable any more. -/
theorem LeavesOK.forkShare (h : LeavesOK aim k as) (hk : KernOK strict R k)
    (hR : ∀ f, spaceRefs as f ≤ R f) (hc : UserCell 1 v) (ho : (as.ent 1 v).owns)
    (hlt : k.pmm.refcount (as.ent 1 v).frame < 65535) :
    LeavesOK aim (k.share (as.ent 1 v).frame) (as.put 1 v (forkPte (as.ent 1 v))) ∧
      ∀ x, spaceRefs (as.put 1 v (forkPte (as.ent 1 v))) x = spaceRefs as x := by
  have hfr : (as.ent 1 v).hasFrame := by
    exact (Bool.and_eq_true _ _ ▸ ho).1
  have hrefs : ∀ x, spaceRefs (as.put 1 v (forkPte (as.ent 1 v))) x = spaceRefs as x := fun x => by
    have := spaceRefs_put as hc (forkPte (as.ent 1 v)) x
    rw [own_forkPte] at this
    omega
  have hpos := owns_le_spaceRefs hc ho
  have h0 : 0 < k.pmm.refcount (as.ent 1 v).frame := by
    have := hk.held (as.ent 1 v).frame; have := hR (as.ent 1 v).frame; omega
  refine ⟨⟨h.wf.putLeaf (.inr ⟨(forkPte_hasFrame _).trans hfr, h.wf.path hc hfr⟩),
    fun f hf => h.frames f (hrefs f ▸ hf), fun w hw hn => ?_, fun ha w hw how hwr => ?_⟩, hrefs⟩ <;>
    by_cases hwv : w = v
  · subst hwv
    rw [put_self, forkPte_nofree] at hn
    unfold Pte.owns at ho
    rw [hn, Bool.not_true, Bool.and_false] at ho
    cases ho
  · rw [put_other fun h => hwv h.2] at hn ⊢
    exact h.dev w hw hn
  · subst hwv
    rw [put_self, forkPte_writable] at hwr
    cases hwr
  · rw [put_other fun h => hwv h.2] at how hwr ⊢
    have h1 := h.sole ha w hw how hwr
    rw [share_refcount hk.pmm h0 hlt, one_of_ne, h1]
    -- two leaves with the frame would be two references
    intro he
    have h2 := own_add_le_spaceRefs as hc hw hwv (as.ent 1 w).frame
    rw [own_self how, he, own_self ho] at h2
    have := hk.held (as.ent 1 v).frame; have := hR (as.ent 1 v).frame
    rw [he] at h1
    omega

/-- Sharing a frame of the parent's: with a reference of somebody else's it had two already. -/
theorem share_apart {refs : ℕ → ℕ} (hk : KernOK strict R k) (hR : ∀ x, refs x + O x ≤ R x)
    (hf : 1 ≤ refs f) (hlt : k.pmm.refcount f < 65535) : Apart O k (k.share f) := by
  have h0 := hk.held f
  have h1 := hR f
  refine ⟨fun _ _ => rfl, fun x hx h2 => ?_⟩
  rw [share_refcount hk.pmm (by omega) hlt, one_of_ne, h2]
  rintro rfl
  omega

/-! ## Room in the queue -/

/-- The queue would take the frames of the child, of the tables of `N` it does not have
yet, and of `m` more pages. -/
def Roomy (N : Finset (ℕ × ℕ)) (m : ℕ) (vm : Vm) : Prop :=
  Room (frameCount vm.as + 1 + (missing N vm.as).card + m) vm.k

theorem Room.alloc {r : Option ℕ} (h : Room n k) (ha : k.alloc o = (r, k')) : Room n k' := h.still (.alloc ha)

theorem Roomy.tableStep (h : Roomy N m vm) (hwf : WF vm.as) (hc : UserCell 1 v)
    (hsub : pathTables v ⊆ N) (ht : TableStep v vm vm') : Roomy N m vm' := by
  cases ht with
  | failed ha => exact .alloc h ha
  | fresh h2 h4 habs hup ha =>
    rename_i l f k'
    have hcell : UserCell l (keyOf l v) := userCell_keyOf hc.userPage hc.lt (by omega) h4
    have hmem : (l, keyOf l v) ∈ missing N vm.as := by
      refine Finset.mem_filter.2 ⟨hsub ?_, habs⟩
      unfold pathTables
      have : l = 2 ∨ l = 3 ∨ l = 4 := by omega
      rcases this with rfl | rfl | rfl <;> simp
    have hcount := frameCount_put vm.as hcell (.table f)
    rw [hwf.absent hcell h2 habs] at hcount
    have hcard := Finset.card_erase_add_one hmem
    unfold Roomy
    dsimp only
    rw [missing_table]
    have hw : weight (fun _ => true) (.table f) = 1 := rfl
    exact (Room.alloc h ha).le (by omega)

theorem Roomy.tables (h : Roomy N m vm) (hwf : WF vm.as) (hc : UserCell 1 v) (hsub : pathTables v ⊆ N)
    (ht : Tables v vm vm') : Roomy N m vm' := by
  induction ht with
  | refl => exact h
  | tail ht hs ih => exact ih.tableStep (Tables.wf ht hwf) hc hsub hs

theorem Roomy.putLeaf (h : Roomy N (m + 1) vm) (hc : UserCell 1 v) (hN : ∀ c ∈ N, 2 ≤ c.1) (e : Pte) :
    Roomy N m ⟨vm.k, vm.as.put 1 v e⟩ := by
  have hcount := frameCount_put vm.as hc e
  have := weight_le_one (fun _ => true) e
  unfold Roomy at h ⊢
  dsimp only
  rw [missing_leaf hN]
  exact h.le (by omega)

/-! ## The page loop -/

/-- The references that sharing the pages of a list adds to a frame. -/
def shares (as : AddrSpace) (l : List ℕ) (f : ℕ) : ℕ := (l.map fun w => own (as.ent 1 w) f).sum

theorem shares_cons (as : AddrSpace) (v : ℕ) (l : List ℕ) (f : ℕ) :
    shares as (v :: l) f = own (as.ent 1 v) f + shares as l f := by
  unfold shares
  rw [map_cons, sum_cons]

theorem exists_of_shares (h : 0 < shares as l f) : ∃ w ∈ l, (as.ent 1 w).owns ∧ (as.ent 1 w).frame = f := by
  induction l with
  | nil => exact absurd h (by simp [shares])
  | cons v l ih =>
    rw [shares_cons] at h
    by_cases hv : own (as.ent 1 v) f = 0
    · obtain ⟨w, hw, hr⟩ := ih (by omega)
      exact ⟨w, mem_cons_of_mem _ hw, hr⟩
    · exact ⟨v, mem_cons_self, owns_of_own hv⟩

/-- The accounts of parent and child. -/
structure ForkBooks (aim : Aim) (O : ℕ → ℕ) (s : ForkSt) : Prop where
  child : VmOK aim (fun f => spaceRefs s.parent f + O f) ⟨s.k, s.child⟩
  parent : LeavesOK aim s.k s.parent

/-- **Between two pages of the loop**, `rest` being those to come. -/
structure ForkOK (aim : Aim) (O : ℕ → ℕ) (as : AddrSpace) (N : Finset (ℕ × ℕ)) (rest : List ℕ)
    (s : ForkSt) : Prop where
  books : ForkBooks aim O s
  left : ∀ w ∈ rest, s.parent.ent 1 w = as.ent 1 w
  bound : ∀ f, 0 < shares as rest f → s.k.pmm.refcount f + shares as rest f ≤ 65535
  supplied : aim.noLeak → Supplied N ⟨s.k, s.child⟩
  roomy : aim.noLeak → Roomy N rest.length ⟨s.k, s.child⟩
  unmapped : aim.noLeak → ∀ w ∈ rest, (s.child.ent 1 w).owns = false

theorem forkPage_supplied (h : Supplied N ⟨s.k, s.child⟩) (hc : UserCell 1 v) (hN : ∀ c ∈ N, 2 ≤ c.1) (hsub : pathTables v ⊆ N)
    (hshare : (s.parent.ent 1 v).nofree = false → PmmOK (s.k.share (s.parent.ent 1 v).frame).pmm) :
    (forkPage s v).1 ∧ Supplied N ⟨(forkPage s v).2.k, (forkPage s v).2.child⟩ := by
  have hc' : UserCell 1 (vpnOf (v * 4096)) := by rwa [hc.vpnOf]
  have hsub' : pathTables (vpnOf (v * 4096)) ⊆ N := by rwa [hc.vpnOf]
  unfold forkPage
  dsimp only
  split
  · exact h.mapInto hc' hN hsub' _ _
  rename_i hn
  have hs : Supplied N ⟨s.k.share (s.parent.ent 1 v).frame, s.child⟩ :=
    ⟨hshare (Bool.not_eq_true _ ▸ hn), h.wf, h.supply.free, h.supply.uninjected⟩
  obtain ⟨h1, h2⟩ := hs.mapInto hc' hN hsub' (s.parent.ent 1 v).frame (forkPte (s.parent.ent 1 v))
  rw [h1]
  refine ⟨rfl, ?_⟩
  simp only [Bool.not_true, Bool.false_eq_true, if_false]
  split
  · exact h2
  · rw [setprotFrom_eq h2.wf hc']
    split
    · rename_i hfr
      refine ⟨h2.pmm, h2.wf.putLeaf (.inr ⟨setprotPte_hasFrame _ _, h2.wf.path hc' hfr⟩), ?_⟩
      rw [missing_leaf hN]
      exact h2.supply
    · exact h2

/-- The parent's frames still to be shared are referred to. -/
theorem ForkOK.refs (h : ForkOK aim O as N rest s) (hl : ∀ w ∈ rest, UserCell 1 w)
    (hf : 0 < shares as rest f) : 1 ≤ spaceRefs s.parent f := by
  obtain ⟨w, hw, ho, rfl⟩ := exists_of_shares hf
  rw [← h.left w hw] at ho ⊢
  exact owns_le_spaceRefs (hl w hw) ho

theorem ForkOK.next {parent : AddrSpace} (h : ForkOK aim O as N (v :: rest) s) (hc : UserCell 1 v)
    (hl : ∀ w ∈ rest, UserCell 1 w) (hnd : v ∉ rest) (hN : ∀ c ∈ N, 2 ≤ c.1) (hsub : pathTables v ⊆ N)
    (ht : Tables v ⟨k, s.child⟩ vm) (hk : ∀ n, Room n s.k → Room n k)
    (hbooks : ForkBooks aim O ⟨vm.k, parent, vm.as.put 1 v e⟩)
    (hparent : ∀ w, w ≠ v → parent.ent 1 w = s.parent.ent 1 w)
    (hle : ∀ f, 1 ≤ spaceRefs s.parent f → vm.k.pmm.refcount f ≤ s.k.pmm.refcount f + own (as.ent 1 v) f)
    (hsup : aim.noLeak → Supplied N ⟨vm.k, vm.as.put 1 v e⟩) :
    ForkOK aim O as N rest ⟨vm.k, parent, vm.as.put 1 v e⟩ := by
  have hne : ∀ w ∈ rest, w ≠ v := fun w hw he => hnd (he ▸ hw)
  refine ⟨hbooks, fun w hw => ?_, fun f hf => ?_, hsup, fun hx => ?_, fun hx w hw => ?_⟩
  · exact (hparent w (hne w hw)).trans (h.left w (mem_cons_of_mem _ hw))
  · have hcons := shares_cons as v rest f
    have hb := h.bound f (by omega)
    have href : 1 ≤ spaceRefs s.parent f := h.refs (fun w hw => ?_) (by omega)
    · have := hle f href
      change vm.k.pmm.refcount f + _ ≤ _
      omega
    · rcases mem_cons.1 hw with rfl | hw
      · exact hc
      · exact hl w hw
  · have hr : Roomy N (rest.length + 1) ⟨k, s.child⟩ := hk _ (h.roomy hx)
    exact (hr.tables h.books.child.wf hc hsub ht).putLeaf hc hN e
  · rw [put_other fun he => hne w hw he.2, ht.leaves]
    exact h.unmapped hx w (mem_cons_of_mem _ hw)

theorem VmOK.putChild (h : VmOK aim (fun x => E x + own e x) vm) (hc : UserCell 1 v)
    (hp : HasPath vm.as v) (hfr : e.hasFrame) (hm : Mappable aim vm.k e)
    (hold : aim.noLeak → (vm.as.ent 1 v).owns = false) : VmOK aim E ⟨vm.k, vm.as.put 1 v e⟩ := by
  have hput := h.put (fun x => E x + own (vm.as.ent 1 v) x) hc (fun x => by omega)
    (h.wf.putLeaf (.inr ⟨hfr, hp⟩)) hm.frame (fun _ => hm.dev) fun ha _ => hm.sole ha
  exact hput.le (fun x => Nat.le_add_right _ _) fun hx x => by rw [own_not (hold hx)]; exact le_rfl

theorem childPte_owns (ho : e.owns) : (childPte e).owns := by
  unfold Pte.owns at ho ⊢
  rw [Bool.and_eq_true] at ho
  rw [childPte_hasFrame ho.1, childPte_nofree, ho.2]
  rfl

/-- **One page.** -/
theorem ForkOK.page (h : ForkOK aim O as N (v :: rest) s) (hc : UserCell 1 v)
    (hfr : (as.ent 1 v).hasFrame) (hl : ∀ w ∈ rest, UserCell 1 w) (hnd : v ∉ rest)
    (hN : ∀ c ∈ N, 2 ≤ c.1) (hsub : pathTables v ⊆ N) :
    Apart O s.k (forkPage s v).2.k ∧ ForkBooks aim O (forkPage s v).2 ∧
      ((forkPage s v).1 → ForkOK aim O as N rest (forkPage s v).2) ∧
      (aim.noLeak → (forkPage s v).1) := by
  have hleft : s.parent.ent 1 v = as.ent 1 v := h.left v mem_cons_self
  have hfr' : (s.parent.ent 1 v).hasFrame := by rw [hleft]; exact hfr
  have hwf := h.books.child.wf
  have hO : ∀ x, O x ≤ spaceRefs s.parent x + O x := fun x => Nat.le_add_left _ _
  have hP : ∀ x, spaceRefs s.parent x ≤ spaceRefs s.parent x + O x := fun x => Nat.le_add_right _ _
  have hold : ∀ {k : Kernel} {vm : Vm}, Tables v ⟨k, s.child⟩ vm → aim.noLeak → (vm.as.ent 1 v).owns = false := fun ht hx => by
    rw [ht.leaves]
    exact h.unmapped hx v mem_cons_self
  -- what sharing an owned page needs and gives
  have hshare : (s.parent.ent 1 v).nofree = false → (s.parent.ent 1 v).owns = true ∧
      s.k.pmm.refcount (s.parent.ent 1 v).frame < 65535 := by
    intro hn
    have ho : (s.parent.ent 1 v).owns := by unfold Pte.owns; rw [hfr', hn]; rfl
    have hs := shares_cons as v rest (s.parent.ent 1 v).frame
    rw [← hleft, own_self ho] at hs
    have hb := h.bound (s.parent.ent 1 v).frame (by omega)
    exact ⟨ho, by omega⟩
  have hsup : aim.noLeak → (forkPage s v).1 ∧ Supplied N ⟨(forkPage s v).2.k, (forkPage s v).2.child⟩ := fun hx => by
    refine forkPage_supplied (h.supplied hx) hc hN hsub fun hn => ?_
    obtain ⟨ho, hlt⟩ := hshare hn
    have hpos := owns_le_spaceRefs hc ho
    exact (h.books.child.share (by omega) hlt).kern.pmm
  have hend := forkPage_cases (s := s) hwf hc
  generalize forkPage s v = r at hend hsup
  cases hend with
  | devFailed hn ht =>
    rename_i vm
    have hs := h.books.child.tables hc ht
    exact ⟨(hs.spares.mono hO).apart hs.ok.kern fun x => by omega, ⟨hs.ok, h.books.parent.spared hs.ok.kern
      (hs.spares.mono hP) fun x => by omega⟩, nofun, fun hx => (hsup hx).1⟩
  | dev hn ht hp =>
    rename_i vm
    have hs := h.books.child.tables hc ht
    obtain ⟨hcow, hd⟩ := h.books.parent.dev v hc hn
    have hno : (s.parent.ent 1 v).shown.owns = false := by
      unfold Pte.owns Pte.shown
      rw [hn, Bool.not_true, Bool.and_false]
    have hchild := VmOK.putChild (E := fun f => spaceRefs s.parent f + O f) (e := (s.parent.ent 1 v).shown)
      (hs.ok.congr fun x => by rw [own_not hno, add_zero]) hc hp rfl
      ⟨fun ho => absurd (hno.symm.trans ho) (by decide), fun _ => ⟨hcow, hd⟩,
        fun _ ho => absurd (hno.symm.trans ho) (by decide)⟩ (hold ht)
    have hbooks : ForkBooks aim O ⟨vm.k, s.parent, vm.as.put 1 v (s.parent.ent 1 v).shown⟩ :=
      ⟨hchild, h.books.parent.spared hs.ok.kern (hs.spares.mono hP) fun x => by omega⟩
    refine ⟨(hs.spares.mono hO).apart hs.ok.kern fun x => by omega, hbooks,
      fun _ => h.next hc hl hnd hN hsub ht (fun _ => id) hbooks
      (fun _ _ => rfl) (fun f hf => ?_) fun hx => (hsup hx).2, fun _ => rfl⟩
    exact (hs.spares.le f (by omega)).trans (Nat.le_add_right _ _)
  | failed hn ht =>
    rename_i vm
    obtain ⟨ho, hlt⟩ := hshare hn
    have hpos := owns_le_spaceRefs hc ho
    obtain ⟨hpar, hrefs⟩ := h.books.parent.forkShare h.books.child.kern (fun x => by omega) hc ho hlt
    have hs := (h.books.child.share (by omega) hlt).tables hc ht
    have hap : Apart O s.k vm.k := (share_apart h.books.child.kern (fun x => by omega) hpos hlt).trans
      ((hs.spares.mono fun x => by omega).apart hs.ok.kern fun x => by omega)
    refine ⟨hap, ⟨?_, hpar.spared hs.ok.kern (hs.spares.mono fun x => by rw [hrefs]; omega) fun x => by
      rw [hrefs]; omega⟩, nofun, fun hx => (hsup hx).1⟩
    refine hs.ok.le (fun x => ?_) fun hx => absurd (hsup hx).1 (by simp)
    rw [hrefs]
    omega
  | shared hn ht hp =>
    rename_i vm
    obtain ⟨ho, hlt⟩ := hshare hn
    have hpos := owns_le_spaceRefs hc ho
    obtain ⟨hpar, hrefs⟩ := h.books.parent.forkShare h.books.child.kern (fun x => by omega) hc ho hlt
    have hs := (h.books.child.share (by omega) hlt).tables hc ht
    have hap : Apart O s.k vm.k := (share_apart h.books.child.kern (fun x => by omega) hpos hlt).trans
      ((hs.spares.mono fun x => by omega).apart hs.ok.kern fun x => by omega)
    have hown : ∀ x, own (childPte (s.parent.ent 1 v)) x = one (s.parent.ent 1 v).frame x := fun x => by
      rw [own_owns (childPte_owns ho), childPte_frame]
    have hchild := VmOK.putChild (E := fun f => spaceRefs (s.parent.put 1 v (forkPte (s.parent.ent 1 v))) f + O f)
      (e := childPte (s.parent.ent 1 v)) (hs.ok.congr fun x => by rw [hown, hrefs]) hc hp
      (childPte_hasFrame hfr')
      ⟨fun _ => by rw [childPte_frame]; exact h.books.parent.frames _ hpos,
        fun hd => absurd (((childPte_nofree _).trans hn).symm.trans hd) (by decide),
        fun _ _ hw => absurd ((childPte_writable _).symm.trans hw) (by decide)⟩ (hold ht)
    have hbooks : ForkBooks aim O ⟨vm.k, s.parent.put 1 v (forkPte (s.parent.ent 1 v)),
        vm.as.put 1 v (childPte (s.parent.ent 1 v))⟩ :=
      ⟨hchild, hpar.spared hs.ok.kern (hs.spares.mono fun x => by rw [hrefs]; omega) fun x => by
        rw [hrefs]; omega⟩
    refine ⟨hap, hbooks, fun _ => h.next hc hl hnd hN hsub ht (fun _ => id) hbooks
        (fun w hw => put_other fun he => hw he.2) (fun f hf => ?_) fun hx => (hsup hx).2,
      fun _ => rfl⟩
    refine (hs.spares.le f (by omega)).trans ?_
    have h0 : 0 < s.k.pmm.refcount (s.parent.ent 1 v).frame := by
      have := h.books.child.kern.held (s.parent.ent 1 v).frame
      dsimp only at this
      omega
    rw [share_refcount h.books.child.kern.pmm h0 hlt, ← hleft, own_owns ho]

/-- **The page loop.** -/
theorem ForkOK.pages (h : ForkOK aim O as N l s)
    (hl : ∀ v ∈ l, UserCell 1 v ∧ (as.ent 1 v).hasFrame) (hnd : l.Nodup) (hN : ∀ c ∈ N, 2 ≤ c.1)
    (hsub : ∀ v ∈ l, pathTables v ⊆ N) : Apart O s.k (forkPages l s).2.k ∧ ForkBooks aim O (forkPages l s).2 ∧
      (aim.noLeak → (forkPages l s).1 ∧ Roomy N 0 ⟨(forkPages l s).2.k, (forkPages l s).2.child⟩) := by
  induction l generalizing s with
  | nil => exact ⟨⟨fun _ _ => rfl, fun _ _ h => h⟩, h.books, fun hx => ⟨rfl, h.roomy hx⟩⟩
  | cons v rest ih =>
    obtain ⟨⟨hc, hfr⟩, hl'⟩ := forall_mem_cons.1 hl
    obtain ⟨hsub1, hsub'⟩ := forall_mem_cons.1 hsub
    obtain ⟨hv, hnd'⟩ := nodup_cons.1 hnd
    obtain ⟨hap, hbooks, hok, hx⟩ := h.page hc hfr (fun w hw => (hl' w hw).1) hv hN hsub1
    unfold forkPages
    dsimp only
    split
    · rename_i hr
      obtain ⟨hap', hrest⟩ := ih (hok hr) hl' hnd' hsub'
      exact ⟨hap.trans hap', hrest⟩
    · rename_i hr
      exact ⟨hap, hbooks, fun hs => absurd (hx hs) hr⟩

/-! ## The pages fork visits -/

theorem nodup_treeLeaves (as : AddrSpace) (l key : ℕ) : (treeLeaves as l key).Nodup := by
  fun_induction treeLeaves as l key with
  | case1 => exact nodup_nil
  | case2 => exact nodup_singleton _
  | case3 => exact nodup_nil
  | case4 =>
    rename_i l key hp ih
    refine nodup_flatMap.2 ⟨fun i _ => ih i, nodup_range.imp fun {i j} hij v hi hj => hij ?_⟩
    -- a page lies below one child only
    have h1 := (mem_treeLeaves hi).1
    have h2 := (mem_treeLeaves hj).1
    omega
  | case5 => exact nodup_nil

theorem nodup_spaceLeaves (as : AddrSpace) : (spaceLeaves as).Nodup := by
  refine nodup_flatMap.2 ⟨fun i _ => ?_, nodup_range.imp fun {i j} hij v hi hj => hij ?_⟩
  · split
    · exact nodup_nil
    · exact nodup_treeLeaves as 4 i
  · dsimp only at hi hj
    split at hi
    · exact absurd hi not_mem_nil
    split at hj
    · exact absurd hj not_mem_nil
    have h1 := (mem_treeLeaves hi).1
    have h2 := (mem_treeLeaves hj).1
    exact h1.symm.trans h2

/-! ## A new address space -/

theorem newSpace_refs (k : Kernel) (ent : ℕ → ℕ → Pte) (f : ℕ) :
    spaceRefs (newSpace k ent).1 f = one (newSpace k ent).1.pml4 f := by
  unfold spaceRefs
  rw [Radix.forest_eq_zero fun l key h1 h4 hs => ?_, add_zero]
  rw [newSpace_blank ⟨h1, h4, hs⟩, own_zero]

theorem newSpace_frameCount (k : Kernel) (ent : ℕ → ℕ → Pte) : frameCount (newSpace k ent).1 = 0 :=
  Radix.forest_eq_zero fun l key h1 h4 hs => by rw [newSpace_blank ⟨h1, h4, hs⟩, weight_zero]

/-- **A new address space** refers to its PML4. -/
theorem VmOK.newSpace (hk : KernOK aim.noLeak R k) (ha : k.alloc 0 = (some f, k')) (ent : ℕ → ℕ → Pte) :
    VmOK aim R ⟨(newSpace k ent).2, (newSpace k ent).1⟩ ∧ Spares R k (newSpace k ent).2 := by
  have hf := hk.alloc ha
  have hin : In f 0 f := in_zero.2 rfl
  have htab : k.allocTableFrame = (some f, k'.zeroFrame f) := by
    unfold Kernel.allocTableFrame; rw [ha]
  have h1 : (NeoOS.newSpace k ent).1.pml4 = f := by unfold NeoOS.newSpace; rw [htab]; rfl
  have h2 : (NeoOS.newSpace k ent).2 = k'.zeroFrame f := by unfold NeoOS.newSpace; rw [htab]
  have hrefs := newSpace_refs k ent
  rw [h1] at hrefs
  have hheld := hk.held f
  have hzero := hf.unheld f hin
  refine ⟨⟨?_, newSpace_wf k ent, fun x hx => ?_, fun v hc hn => ?_, fun _ v hc ho => ?_⟩, ?_⟩
  · rw [h2]
    exact .same (hf.ok.congr fun x => by dsimp only; rw [hrefs, block_zero, add_comm]) rfl rfl rfl
  · rw [hrefs] at hx
    obtain rfl : x = f := by
      by_contra hne
      rw [one_of_ne hne] at hx
      exact absurd hx (by decide)
    exact ⟨hf.ne_zero, by have := hf.inRange; omega⟩
  · dsimp only at hn
    rw [newSpace_blank hc] at hn; cases hn
  · dsimp only at ho
    rw [newSpace_blank hc] at ho; cases ho
  · rw [h2]
    refine ⟨fun x hx => ?_, hf.spares.le⟩
    have hne : x ≠ f := by rintro rfl; omega
    exact (Function.update_of_ne hne _ _).trans (hf.spares.mem x hx)

/-! ## The whole call -/

theorem BlockOK.held {s s' : Pmm} (h : BlockOK s f o) (hs : ∀ x, In f o x → s'.refcount x = 1) : BlockOK s' f o :=
  { h with sole := hs }

theorem KernOK.gaveUp (h : KernOK strict R k) (hg : GaveUp k k') :
    KernOK strict R k' ∧ Spares R k k' ∧ ∀ n, Room n k → Room n k' := by
  cases hg with
  | idle hi => exact ⟨(h.idle hi).1, (h.idle hi).2, fun n hr => hr.idle hi⟩
  | noStack h1 h2 =>
    have hi := h1.refused h2
    exact ⟨(h.idle hi).1, (h.idle hi).2, fun n hr => hr.idle hi⟩
  | stack h1 h2 h3 h4 =>
    rename_i k1 k2 k3 f
    obtain ⟨hok1, hsp1⟩ := h.idle h1
    have hf := hok1.alloc h2
    obtain ⟨hok3, hsp3⟩ := hf.ok.idle h3
    have hst : BlockOK k3.pmm f kstackOrder := hf.toBlockOK.held fun x hx =>
      hsp3.sole hok3 (fun _ => le_rfl) (by rw [block_in hx]; omega) (hf.sole x hx)
    obtain ⟨hok, hsp⟩ := hok3.freeBlock hst
    rw [h4]
    refine ⟨hok, hsp1.trans (hf.spares.trans ((hsp3.mono fun x => Nat.le_add_right _ _).trans hsp)), fun n hr => ?_⟩
    have hr3 : Room n k3 := .idle ((hr.idle h1).alloc h2) h3
    exact hr3

/-- The tables on the way to the pages of a list. -/
def tablesOf (l : List ℕ) : Finset (ℕ × ℕ) := l.toFinset.biUnion pathTables

theorem pathTables_le (h : c ∈ pathTables v) : 2 ≤ c.1 := by
  unfold pathTables at h
  simp only [Finset.mem_insert, Finset.mem_singleton] at h
  rcases h with rfl | rfl | rfl <;> simp

theorem tablesOf_le (h : c ∈ tablesOf l) : 2 ≤ c.1 := by
  obtain ⟨v, -, hv⟩ := Finset.mem_biUnion.1 h
  exact pathTables_le hv

theorem pathTables_subset (h : v ∈ l) : pathTables v ⊆ tablesOf l := Finset.subset_biUnion_of_mem pathTables (mem_toFinset.2 h)

/-- The condition on a fork: there is a frame for the child's PML4 and no reference count
runs over; and, not to lose a reference, there are frames for the child's tables and the
queue has room for its frames, should the child be given up. -/
structure ForkAccounted (aim : Aim) (k : Kernel) (p : Proc) : Prop where
  pml4 : (k.alloc 0).1 ≠ none
  bound : ∀ f, 0 < shares p.as (spaceLeaves p.as) f → k.pmm.refcount f + shares p.as (spaceLeaves p.as) f ≤ 65535
  supply : aim.noLeak → Supply ((tablesOf (spaceLeaves p.as)).card + 1) k
  room : aim.noLeak → Room (1 + (tablesOf (spaceLeaves p.as)).card + (spaceLeaves p.as).length) k

theorem ForkOK.start (h : VmOK aim O ⟨k, p.as⟩) (hc : ForkAccounted aim k p) (ent : ℕ → ℕ → Pte) :
    Apart O k (newSpace k ent).2 ∧ ForkOK aim O p.as (tablesOf (spaceLeaves p.as))
      (spaceLeaves p.as) ⟨(newSpace k ent).2, p.as, (newSpace k ent).1⟩ := by
  obtain ⟨f, hf⟩ := Option.ne_none_iff_exists'.1 hc.pml4
  have ha : k.alloc 0 = (some f, (k.alloc 0).2) := by rw [← hf]
  obtain ⟨hok, hsp⟩ := VmOK.newSpace h.kern ha ent
  have h2 : (newSpace k ent).2 = (k.alloc 0).2.zeroFrame f := by
    unfold newSpace Kernel.allocTableFrame; rw [ha]
  refine ⟨(hsp.mono fun x => Nat.le_add_left _ _).apart hok.kern fun x => by dsimp only; omega,
    ⟨hok, h.leaves.spared hok.kern (hsp.mono fun x => Nat.le_add_right _ _) fun x => by dsimp only; omega⟩,
    fun _ _ => rfl, fun x hx => ?_, fun hs => ⟨hok.kern.pmm, hok.wf, ?_⟩, fun hs => ?_, fun hs w hw => ?_⟩
  · obtain ⟨w, hw, ho, rfl⟩ := exists_of_shares hx
    have hpos := owns_le_spaceRefs (mem_spaceLeaves hw).1 ho
    have := hsp.le (p.as.ent 1 w).frame (by dsimp only; omega)
    have := hc.bound _ hx
    dsimp only at *
    omega
  · obtain ⟨f', k', ha', hs'⟩ := (hc.supply hs).alloc h.kern.pmm
    rw [ha'] at ha
    cases ha
    rw [ha'] at h2
    rw [h2]
    exact ⟨(Finset.card_filter_le _ _).trans hs'.free,
      fun i hi => hs'.uninjected i (lt_of_lt_of_le hi (Finset.card_filter_le _ _))⟩
  · have hroom : Room (1 + (tablesOf (spaceLeaves p.as)).card + (spaceLeaves p.as).length) (newSpace k ent).2 := by
      rw [h2]
      exact hc.room hs
    refine hroom.le ?_
    have := Finset.card_filter_le (tablesOf (spaceLeaves p.as)) fun c => ((newSpace k ent).1.ent c.1 c.2).present = false
    dsimp only
    rw [newSpace_frameCount]
    unfold missing
    omega
  · dsimp only
    rw [newSpace_blank (mem_spaceLeaves hw).1]
    rfl

/-- **How the accounts stand after a fork.** -/
structure ForkDone (aim : Aim) (O : ℕ → ℕ) (k : Kernel) (r : Kernel × Proc × Option (Proc × ℕ)) : Prop where
  apart : Apart O k r.1
  parent : LeavesOK aim r.1 r.2.1.as
  alone : r.2.2 = none → KernOK aim.noLeak (fun f => spaceRefs r.2.1.as f + O f) r.1
  child : ∀ q stack, r.2.2 = some (q, stack) →
    KernOK aim.noLeak (fun f => spaceRefs r.2.1.as f + O f + (spaceRefs q.as f + block stack kstackOrder f)) r.1 ∧
      LeavesOK aim r.1 q.as ∧ BlockOK r.1.pmm stack kstackOrder

/-- **`fork_task`**, whether it succeeds or gives the child up. -/
theorem VmOK.fork (h : VmOK aim O ⟨k, p.as⟩) (hc : (procMem k).1 → ForkAccounted aim (procMem k).2 p) :
    ForkDone aim O k (forkTask k p) := by
  have hidle := h.idle (.procMem k)
  have hap1 : Apart O k (procMem k).2 := hidle.spares.apart hidle.ok.kern fun x => by omega
  have hstop : ForkDone aim O k ((procMem k).2, p, none) := ⟨hap1, hidle.ok.leaves, fun _ => hidle.ok.kern, nofun⟩
  by_cases hk : (procMem k).1
  swap
  · unfold forkTask
    rw [if_pos (by simpa using hk)]
    exact hstop
  obtain ⟨hap2, hstart⟩ := ForkOK.start hidle.ok (hc hk) p.as.ent
  have hend := forkTask_cases k p
  generalize NeoOS.newSpace (procMem k).2 p.as.ent = c at hap2 hstart hend
  have hl : ∀ v ∈ spaceLeaves p.as, UserCell 1 v ∧ (p.as.ent 1 v).hasFrame := fun v hv =>
    mem_spaceLeaves hv
  obtain ⟨hap3, hbooks, hstrict⟩ := hstart.pages hl (nodup_spaceLeaves p.as) (fun _ => tablesOf_le) fun _ => pathTables_subset
  generalize forkPages (spaceLeaves p.as) ⟨c.2, p.as, c.1⟩ = r at hap3 hbooks hstrict hend
  have hap : Apart O k r.2.k := (hap1.trans hap2).trans hap3
  rcases hend with hend | hend
  · rw [hend]; exact hstop
  generalize forkTask k p = out at hend
  cases hend with
  | failed hg =>
    rename_i k1
    obtain ⟨hok, hsp, hroom⟩ := hbooks.child.kern.gaveUp hg
    have hvm : VmOK aim (fun f => spaceRefs r.2.parent f + O f) ⟨k1, r.2.child⟩ := hbooks.child.kernel hok hsp
    obtain ⟨hend, hsp'⟩ := hvm.freeAddressSpace fun hx => by
      refine (hroom _ (hstrict hx).2).le ?_
      rw [length_spaceFrames hvm.wf]
      dsimp only
      omega
    generalize Vm.freeAddressSpace k1 r.2.child = k2 at hend hsp' ⊢
    have hall := (hsp.mono fun x => Nat.le_add_left _ _).trans hsp'
    exact ⟨hap.trans ((hall.mono fun x => Nat.le_add_left _ _).apart hend fun x => by omega),
      hbooks.parent.spared hend (hall.mono fun x => Nat.le_add_right _ _) fun x => by omega, fun _ => hend, nofun⟩
  | forked hr hi1 ha hi2 =>
    rename_i k1 k2 k3 stack
    obtain ⟨hok1, hsp1⟩ := hbooks.child.kern.idle hi1
    have hf := hok1.alloc ha
    obtain ⟨hok, hsp2⟩ := hf.ok.idle hi2
    have hsp := (hsp1.trans hf.spares).trans (hsp2.mono fun x => Nat.le_add_right _ _)
    refine ⟨hap.trans ((hsp.mono fun x => by omega).apart hok fun x => by omega),
      hbooks.parent.spared hok (hsp.mono fun x => by omega) fun x => by omega, nofun, fun q stk he => ?_⟩
    cases he
    refine ⟨hok.congr fun x => by dsimp only; omega,
      hbooks.child.leaves.spared hok (hsp.mono fun x => by dsimp only; omega) fun x => by dsimp only; omega,
      hf.toBlockOK.held fun x hx => ?_⟩
    exact hsp2.sole hok (fun _ => le_rfl) (by rw [block_in hx]; omega) (hf.sole x hx)

end NeoOS
