import Mathlib.Data.List.Nodup

/-!
# Intrusive doubly linked lists

The links are two maps `next` and `prev` on nodes, `null` is the node that is
no node, and a list is known to its owner by its head alone. `Seg next prev p h l`
says that following `next` from `h` visits exactly the nodes of `l`, each with
`prev` pointing at the node before it (the first one at `p`).

Many lists may live in the same two maps: `Seg.frame` is what lets one be
changed under the others.

* `Seg.push`: linking a node in front of a list.
* `Seg.remove`: unlinking any node of a list, by its own links only.
-/

namespace DList

open List
open Function (update)

variable {α : Type*} {null p h b x : α} {next prev next' prev' : α → α} {l : List α}

/-- The nodes `l`, linked from `h` on, the first one pointing back at `p`. -/
def Seg (null : α) (next prev : α → α) : α → α → List α → Prop
  | _, h, [] => h = null
  | p, h, b :: l => h = b ∧ b ≠ null ∧ prev b = p ∧ Seg null next prev b (next b) l

@[simp] theorem seg_nil : Seg null next prev p h [] ↔ h = null := Iff.rfl

section

variable (hs : Seg null next prev p h l)
include hs

/-- **A list depends on the links of its own nodes only.** -/
theorem Seg.frame (hn : ∀ b ∈ l, next' b = next b) (hp : ∀ b ∈ l, prev' b = prev b) : Seg null next' prev' p h l := by
  induction l generalizing p h with
  | nil => exact hs
  | cons b l ih =>
    obtain ⟨hb, hb0, hpb, hl⟩ := hs
    refine ⟨hb, hb0, by rw [hp b mem_cons_self, hpb], ?_⟩
    rw [hn b mem_cons_self]
    exact ih hl (fun x hx => hn x (mem_cons_of_mem _ hx)) (fun x hx => hp x (mem_cons_of_mem _ hx))

theorem Seg.ne_null : ∀ b ∈ l, b ≠ null := by
  induction l generalizing p h with
  | nil => simp
  | cons b l ih => exact forall_mem_cons.2 ⟨hs.2.1, ih hs.2.2.2⟩

theorem Seg.head_eq_null : h = null ↔ l = [] := by
  cases l with
  | nil => simpa using hs
  | cons b l =>
    obtain ⟨rfl, hb0, -⟩ := hs
    simp [hb0]

theorem Seg.head_mem (h0 : h ≠ null) : h ∈ l := by
  cases l with
  | nil => exact absurd hs h0
  | cons b l => obtain ⟨rfl, -⟩ := hs; exact mem_cons_self

theorem Seg.next_mem (hb : b ∈ l) : next b = null ∨ next b ∈ l.tail := by
  induction l generalizing p h with
  | nil => simp at hb
  | cons a l ih =>
    obtain ⟨-, -, -, hl⟩ := hs
    rcases mem_cons.1 hb with rfl | hb
    · by_cases h0 : next b = null
      · exact .inl h0
      · exact .inr (hl.head_mem h0)
    · exact (ih hl hb).imp_right mem_of_mem_tail

/-- The predecessor of a node is the entry pointer `p` or another node; it is
`p` exactly for the first node. -/
theorem Seg.prev_cases (hb : b ∈ l) (hnd : l.Nodup) : (b = h ∧ prev b = p) ∨ (b ≠ h ∧ prev b ∈ l) := by
  induction l generalizing p h with
  | nil => simp at hb
  | cons a l ih =>
    obtain ⟨rfl, -, hpa, hl⟩ := hs
    rw [nodup_cons] at hnd
    rcases mem_cons.1 hb with rfl | hb
    · exact .inl ⟨rfl, hpa⟩
    · refine .inr ⟨fun e => hnd.1 (e ▸ hb), ?_⟩
      rcases ih hl hb hnd.2 with ⟨-, h2⟩ | ⟨-, h2⟩
      · rw [h2]; exact mem_cons_self
      · exact mem_cons_of_mem _ h2

end

section Ops

variable [DecidableEq α]

/-- `next` after `b` is linked in front of the list at `h`. -/
def pushNext (next : α → α) (h b : α) : α → α := update next b h

/-- `prev` after `b` is linked in front of the list at `h`. -/
def pushPrev (null : α) (prev : α → α) (h b : α) : α → α :=
  if h ≠ null then update (update prev b null) h b
  else update prev b null

/-- `next` after `b` is unlinked. -/
def removeNext (null : α) (next prev : α → α) (b : α) : α → α :=
  if prev b ≠ null then update next (prev b) (next b) else next

/-- `prev` after `b` is unlinked. -/
def removePrev (null : α) (next prev : α → α) (b : α) : α → α :=
  if next b ≠ null then update prev (next b) (prev b) else prev

theorem pushNext_of_ne (hx : x ≠ b) : pushNext next h b x = next x := by
  simp [pushNext, hx]

theorem pushPrev_of_ne (hx : x ≠ b) (hh : x ≠ h) : pushPrev null prev h b x = prev x := by
  unfold pushPrev; split <;> simp [hx, hh]

theorem removeNext_of_ne (hx : x ≠ prev b) : removeNext null next prev b x = next x := by
  unfold removeNext; split <;> simp [hx]

theorem removePrev_of_ne (hx : x ≠ next b) : removePrev null next prev b x = prev x := by
  unfold removePrev; split <;> simp [hx]

/-- **Pushing in front.** The new node becomes the head of its list. -/
theorem Seg.push (hs : Seg null next prev null h l) (hb : b ∉ l) (hb0 : b ≠ null) (hnd : l.Nodup) :
    Seg null (pushNext next h b) (pushPrev null prev h b) null b (b :: l) := by
  have hbh : l ≠ [] → b ≠ h := by
    rintro hl rfl
    exact hb (hs.head_mem hb0)
  refine ⟨rfl, hb0, ?_, ?_⟩
  · by_cases h0 : h = null
    · simp [pushPrev, h0]
    · have : b ≠ h := hbh fun e => h0 (hs.head_eq_null.2 e)
      simp [pushPrev, h0, this]
  · have hn : pushNext next h b b = h := by simp [pushNext]
    rw [hn]
    cases l with
    | nil => exact hs
    | cons a l =>
      obtain ⟨rfl, ha0, hpa, hl⟩ := hs
      rw [nodup_cons] at hnd
      rw [mem_cons, not_or] at hb
      refine ⟨rfl, ha0, by simp [pushPrev, ha0], ?_⟩
      rw [pushNext_of_ne (Ne.symm hb.1)]
      refine hl.frame (fun x hx => pushNext_of_ne ?_) (fun x hx => pushPrev_of_ne ?_ ?_)
      · exact fun e => hb.2 (e ▸ hx)
      · exact fun e => hb.2 (e ▸ hx)
      · exact fun e => hnd.1 (e ▸ hx)

/-- **Unlinking a node.** Only its own links are read; the head moves on when it
was the first node. `p` stands outside the list. -/
theorem Seg.remove (hs : Seg null next prev p h l) (hb : b ∈ l) (hnd : l.Nodup) (hp : p ∉ l) :
    Seg null (removeNext null next prev b) (removePrev null next prev b) p (if b = h then next b else h) (l.erase b) := by
  induction l generalizing p h with
  | nil => simp at hb
  | cons a l ih =>
    obtain ⟨rfl, ha0, hpa, hl⟩ := hs
    rw [nodup_cons] at hnd
    by_cases hba : b = h
    · -- the first node goes: its successor now points back at `p`
      subst hba
      rw [if_pos rfl, erase_cons_head]
      cases l with
      | nil => simpa using hl
      | cons c l =>
        obtain ⟨hc, hc0, hpc, hl⟩ := hl
        rw [nodup_cons] at hnd
        simp only [mem_cons, not_or] at hp hnd
        refine ⟨hc, hc0, ?_, ?_⟩
        · simp [removePrev, hc, hc0, hpa]
        · have hcp : removeNext null next prev b c = next c := removeNext_of_ne (by
            rw [hpa]; exact Ne.symm hp.2.1)
          rw [hcp]
          refine hl.frame (fun x hx => removeNext_of_ne ?_) (fun x hx => removePrev_of_ne ?_)
          · rw [hpa]; exact fun e => hp.2.2 (e ▸ hx)
          · rw [hc]; exact fun e => hnd.2.1 (e ▸ hx)
    · have hbl : b ∈ l := (mem_cons.1 hb).resolve_left hba
      rw [if_neg hba, erase_cons_tail (by simpa using Ne.symm hba)]
      refine ⟨rfl, ha0, ?_, ?_⟩
      · rw [removePrev_of_ne, hpa]
        rcases hl.next_mem hbl with h1 | h1
        · rw [h1]; exact ha0
        · exact fun e => hnd.1 (e ▸ mem_of_mem_tail h1)
      · have hih := ih hl hbl hnd.2 hnd.1
        have hnx : removeNext null next prev b h = if b = next h then next b else next h := by
          rcases hl.prev_cases hbl hnd.2 with ⟨h1, h2⟩ | ⟨h1, h2⟩
          · rw [if_pos h1]; simp [removeNext, h2, ha0]
          · rw [if_neg h1]; exact removeNext_of_ne fun e => hnd.1 (e ▸ h2)
        rw [hnx]
        exact hih

end Ops

end DList
