import NeoOS.Proof.Space

/-!
# What the page loops do to the leaves

A loop over the pages of a range edits the leaves that have a frame, one by one, and
nothing else: `Edited g start stop as as'`. Both `unmap_range` and the loop of
`mprotect` over one mapping are of this form.
-/

namespace NeoOS

open List

variable {as as' : AddrSpace} {vm : Vm} {g : Pte → Pte} {start stop x va : ℕ} {f : Vm → ℕ → Vm}

/-- Page `x` lies in `[start, stop)`. -/
def InRange (start stop x : ℕ) : Prop := start ≤ x * 4096 ∧ x * 4096 < stop

instance : Decidable (InRange start stop x) := inferInstanceAs (Decidable (_ ∧ _))

/-- The leaves of the range that have a frame are rewritten by `g`, all others stay. -/
structure Edited (g : Pte → Pte) (start stop : ℕ) (as as' : AddrSpace) : Prop where
  wf : WF as'
  leaf : ∀ x, UserCell 1 x → as'.ent 1 x =
    if InRange start stop x ∧ (as.ent 1 x).hasFrame = true then g (as.ent 1 x) else as.ent 1 x

section

variable (h : Edited g start stop as as')
include h

theorem Edited.inside (hc : UserCell 1 x) (hr : InRange start stop x)
    (hf : (as.ent 1 x).hasFrame) : as'.ent 1 x = g (as.ent 1 x) := by
  rw [h.leaf x hc, if_pos ⟨hr, hf⟩]

theorem Edited.outside (hc : UserCell 1 x) (hr : ¬ InRange start stop x) : as'.ent 1 x = as.ent 1 x := by
  rw [h.leaf x hc, if_neg fun h => hr h.1]

theorem Edited.noFrame (hc : UserCell 1 x) (hf : (as.ent 1 x).hasFrame = false) : as'.ent 1 x = as.ent 1 x := by
  rw [h.leaf x hc, if_neg fun h => by rw [hf] at h; exact absurd h.2 (by decide)]

end

theorem vpnOf_eq (h : va < userAddrLimit) : vpnOf va = va / 4096 := by
  unfold userAddrLimit at h
  exact Nat.mod_eq_of_lt (by omega)

/-- A step at one page. -/
structure EditsPage (g : Pte → Pte) (f : Vm → ℕ → Vm) : Prop where
  frame : ∀ e : Pte, e.hasFrame → g e = Pte.zero ∨ (g e).hasFrame
  step : ∀ vm va, WF vm.as → UserCell 1 (vpnOf va) → (f vm va).as =
    if (vm.as.ent 1 (vpnOf va)).hasFrame then vm.as.put 1 (vpnOf va) (g (vm.as.ent 1 (vpnOf va)))
    else vm.as

theorem EditsPage.wf (hf : EditsPage g f) (hwf : WF vm.as) (hc : UserCell 1 (vpnOf va)) : WF (f vm va).as := by
  rw [hf.step vm va hwf hc]
  split
  · rename_i hfr
    exact hwf.putLeaf ((hf.frame _ hfr).imp id fun h => ⟨h, hwf.path hc hfr⟩)
  · exact hwf

/-- **The page loop.** By induction on the number of pages done. -/
theorem EditsPage.pages (hf : EditsPage g f) (hwf : WF vm.as) (h0 : start % 4096 = 0)
    (h1 : userLow ≤ start) (h2 : stop ≤ userAddrLimit) :
    Edited g start stop vm.as ((Vm.pages start stop).foldl f vm).as := by
  have hind : ∀ n ≤ (stop - start + 4095) / 4096, Edited g start (start + 4096 * n) vm.as
      (((List.range n).map fun i => start + 4096 * i).foldl f vm).as := by
    intro n
    induction n with
    | zero =>
      refine fun _ => ⟨hwf, fun x _ => (if_neg ?_).symm⟩
      rintro ⟨⟨h3, h4⟩, -⟩; omega
    | succ n ih =>
      intro hn
      have hi := ih (by omega)
      rw [range_succ, map_append, foldl_append, map_singleton, foldl_cons, foldl_nil]
      generalize ((List.range n).map fun i => start + 4096 * i).foldl f vm = vm' at hi
      have hlt : start + 4096 * n < userAddrLimit := by omega
      have hc : UserCell 1 (vpnOf (start + 4096 * n)) := userCell_vpn (userPage_of_range (by omega) hlt)
      refine ⟨hf.wf hi.wf hc, fun x hx => ?_⟩
      rw [hf.step _ _ hi.wf hc]
      rw [vpnOf_eq hlt] at hc ⊢
      -- the page of this round is not one of those done
      have hold : vm'.as.ent 1 ((start + 4096 * n) / 4096) = vm.as.ent 1 ((start + 4096 * n) / 4096) :=
        hi.outside hc fun hr => by unfold InRange at hr; omega
      by_cases hxe : x = (start + 4096 * n) / 4096
      · subst hxe
        have hr : InRange start (start + 4096 * (n + 1)) ((start + 4096 * n) / 4096) := by
          unfold InRange; omega
        rw [hold]
        by_cases hfr : (vm.as.ent 1 ((start + 4096 * n) / 4096)).hasFrame
        · rw [if_pos hfr, if_pos ⟨hr, hfr⟩, AddrSpace.put_self]
        · rw [if_neg hfr, if_neg fun h => hfr h.2, hold]
      · have hput : (if (vm'.as.ent 1 ((start + 4096 * n) / 4096)).hasFrame = true
            then vm'.as.put 1 ((start + 4096 * n) / 4096) (g (vm'.as.ent 1 ((start + 4096 * n) / 4096)))
            else vm'.as).ent 1 x = vm'.as.ent 1 x := by
          split
          · exact AddrSpace.put_other fun h => hxe h.2
          · rfl
        rw [hput, hi.leaf x hx]
        refine if_congr (and_congr_left fun _ => ?_) rfl rfl
        unfold InRange; omega
  have hall := hind _ le_rfl
  refine ⟨hall.wf, fun x hx => ?_⟩
  unfold Vm.pages
  rw [hall.leaf x hx]
  refine if_congr (and_congr_left fun _ => ?_) rfl rfl
  unfold InRange; omega

theorem unmapFrom_edits (free : Bool) : EditsPage (fun _ => .zero) fun vm va => vm.unmapFrom va free where
  frame _ _ := .inl rfl
  step vm va hwf hc := by rw [unmapFrom_eq hwf hc]; split <;> rfl

theorem setprotFrom_edits (flags : Pte) : EditsPage (fun e => Vm.setprotPte e flags) fun vm va => vm.setprotFrom va flags where
  frame e _ := .inr (setprotPte_hasFrame e flags)
  step vm va hwf hc := by rw [setprotFrom_eq hwf hc]; split <;> rfl

/-- **`unmap_range`** clears the leaves of the range. -/
theorem unmapRange_edited (start stop : ℕ) (hwf : WF vm.as) (h0 : start % 4096 = 0) (h1 : userLow ≤ start)
    (h2 : stop ≤ userAddrLimit) (free : Bool) :
    Edited (fun _ => .zero) start stop vm.as (unmapRange vm start stop free).as :=
  (unmapFrom_edits free).pages hwf h0 h1 h2

theorem setprotRange_edited (hwf : WF vm.as) (h0 : start % 4096 = 0) (h1 : userLow ≤ start)
    (h2 : stop ≤ userAddrLimit) (flags : Pte) :
    Edited (fun e => Vm.setprotPte e flags) start stop vm.as (setprotRange vm start stop flags).as :=
  (setprotFrom_edits flags).pages hwf h0 h1 h2

end NeoOS
