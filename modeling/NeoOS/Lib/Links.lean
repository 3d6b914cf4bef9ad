import Mathlib.Data.List.Nodup

/-!
# Intrusive singly linked lists

The links are one map `next` on nodes, and a list is known by a pointer to its first node.
`Linked next p l` says that following `next` from `p` visits exactly the nodes of `l`. Many lists
live in the same map: `Linked.congr` is what lets one be changed under the others.

* `Fifo`, `push`, `pop`: a queue with a pointer to its last node.
* `drain`: a queue is emptied onto a list, which turns it around.
* `unlink`: a node is searched from the head and taken out.
* `sieve`: the nodes that meet a test are moved to another list.

Loops over a list are bounded by fuel; as many rounds as the list has nodes are enough.
-/

namespace Links

open List
open Function (update update_idem update_of_ne update_self)

variable {α : Type*} {next next' : α → Option α} {p q r : Option α} {l l' A B W : List α} {a b t : α}

/-- Following the links from `p` through the nodes `l` leads to `q`. -/
def Seg (next : α → Option α) : Option α → List α → Option α → Prop
  | p, [], q => p = q
  | p, a :: l, q => p = some a ∧ Seg next (next a) l q

/-- The nodes `l`, linked from `p` on. -/
abbrev Linked (next : α → Option α) (p : Option α) (l : List α) : Prop := Seg next p l none

/-- **A list depends on the links of its own nodes only.** -/
theorem Seg.congr (h : Seg next p l q) (hn : ∀ a ∈ l, next' a = next a) : Seg next' p l q := by
  induction l generalizing p with
  | nil => exact h
  | cons a l ih =>
    obtain ⟨hp, hl⟩ := h
    refine ⟨hp, ?_⟩
    rw [hn a mem_cons_self]
    exact ih hl fun b hb => hn b (mem_cons_of_mem _ hb)

theorem seg_append : Seg next p (A ++ B) r ↔ ∃ q, Seg next p A q ∧ Seg next q B r := by
  induction A generalizing p with
  | nil =>
    constructor
    · intro h
      exact ⟨p, rfl, h⟩
    · rintro ⟨q, rfl, hq⟩
      exact hq
  | cons a A ih =>
    constructor
    · rintro ⟨hp, h⟩
      obtain ⟨q, hA, hB⟩ := ih.1 h
      exact ⟨q, ⟨hp, hA⟩, hB⟩
    · rintro ⟨q, ⟨hp, hA⟩, hB⟩
      exact ⟨hp, ih.2 ⟨q, hA, hB⟩⟩

theorem Seg.unique (h : Linked next p l) (h' : Linked next p l') : l = l' := by
  induction l generalizing p l' with
  | nil =>
    cases l' with
    | nil => rfl
    | cons b l' =>
      rw [show p = none from h] at h'
      cases h'.1
  | cons a l ih =>
    cases l' with
    | nil =>
      rw [show p = none from h'] at h
      cases h.1
    | cons b l' =>
      obtain ⟨hp, hl⟩ := h
      obtain ⟨hp', hl'⟩ := h'
      rw [hp] at hp'
      cases hp'
      rw [ih hl hl']

theorem Seg.nodup (h : Linked next p l) : l.Nodup := by
  induction l generalizing p with
  | nil => exact nodup_nil
  | cons a l ih =>
    refine nodup_cons.2 ⟨?_, ih h.2⟩
    intro ha
    obtain ⟨A, B, rfl⟩ := append_of_mem ha
    -- the rest is linked from `a` both times, so it would be its own proper part
    obtain ⟨q, -, hB⟩ := seg_append.1 h.2
    have hlen := congrArg List.length (Seg.unique h.2 hB.2)
    simp only [length_append, length_cons] at hlen
    omega

theorem Seg.eq_nil (h : Linked next none l) : l = [] := Seg.unique h rfl

/-- The nodes that following the links visits. -/
def nodes (next : α → Option α) : ℕ → Option α → List α
  | 0, _ => []
  | _ + 1, none => []
  | n + 1, some a => a :: nodes next n (next a)

theorem Seg.nodes_eq {n : ℕ} (h : Linked next p l) (hn : l.length ≤ n) : nodes next n p = l := by
  induction l generalizing p n with
  | nil =>
    rw [show p = none from h]
    cases n <;> rfl
  | cons a l ih =>
    cases n with
    | zero => cases hn
    | succ n =>
      rw [h.1]
      exact congrArg (a :: ·) (ih h.2 (Nat.le_of_succ_le_succ hn))

/-! ## The pointer to a node -/

section Pointers

variable {head v : Option α}

/-- What a pointer to a link holds: the head, or the link of `prev`. -/
def deref (next : α → Option α) (head : Option α) : Option α → Option α
  | none => head
  | some c => next c

theorem Seg.deref_eq (h : Seg next head A q) : deref next head A.getLast? = q := by
  rcases eq_nil_or_concat A with rfl | ⟨A, c, rfl⟩
  · exact h
  · rw [concat_eq_append] at h ⊢
    obtain ⟨x, -, -, hx⟩ := seg_append.1 h
    rw [getLast?_concat]
    exact hx

variable [DecidableEq α]

/-- The link is written. -/
def redirect (next : α → Option α) (head prev v : Option α) : (α → Option α) × Option α :=
  match prev with
  | none => (next, v)
  | some c => (update next c v, head)

theorem Seg.set (h : Seg next p l q) (ht : t ∉ l) (v : Option α) : Seg (update next t v) p l q :=
  h.congr fun _ hb => update_of_ne (ne_of_mem_of_not_mem hb ht) ..

theorem redirect_of_not_mem (ha : a ∉ A) : (redirect next head A.getLast? v).1 a = next a := by
  rcases eq_nil_or_concat A with rfl | ⟨A, c, rfl⟩
  · rfl
  · rw [concat_eq_append, getLast?_concat]
    apply update_of_ne
    rintro rfl
    exact ha (by simp)

theorem Seg.redirect (h : Seg next head A q) (hA : A.Nodup) :
    Seg (redirect next head A.getLast? v).1 (redirect next head A.getLast? v).2 A v := by
  rcases eq_nil_or_concat A with rfl | ⟨A, c, rfl⟩
  · exact rfl
  · rw [concat_eq_append] at h hA ⊢
    rw [getLast?_concat]
    obtain ⟨x, hx, hc, -⟩ := seg_append.1 h
    have hnot : c ∉ A := by simpa using (nodup_cons.1 (nodup_middle.1 hA)).1
    refine seg_append.2 ⟨x, hx.set hnot v, hc, ?_⟩
    exact update_self c v next

/-- **A node is taken out** and linked to `w`. -/
theorem Seg.takeOut (h : Linked next head (A ++ t :: B)) (w : Option α) :
    Linked (update (Links.redirect next head A.getLast? (next t)).1 t w) (Links.redirect next head A.getLast? (next t)).2
        (A ++ B) ∧
      ∀ b ∉ A, b ≠ t → update (Links.redirect next head A.getLast? (next t)).1 t w b = next b := by
  obtain ⟨ht, hAB⟩ := nodup_cons.1 (nodup_middle.1 h.nodup)
  have hkeep : ∀ b ∉ A, b ≠ t → update (Links.redirect next head A.getLast? (next t)).1 t w b = next b := by
    intro b hb hbt
    rw [update_of_ne hbt, redirect_of_not_mem hb]
  obtain ⟨q, hq, -, hrest⟩ := seg_append.1 h
  have hA := (hq.redirect (v := next t) (nodup_append.1 hAB).1).set (fun hm => ht (mem_append_left _ hm)) w
  refine ⟨seg_append.2 ⟨next t, hA, hrest.congr fun b hb => hkeep b ?_ ?_⟩, hkeep⟩
  · exact fun hbA => disjoint_of_nodup_append hAB hbA hb
  · rintro rfl
    exact ht (mem_append_right _ hb)

end Pointers

/-! ## Queues -/

/-- A queue: its first and its last node. -/
structure Fifo (α : Type*) where
  head : Option α
  tail : Option α
deriving DecidableEq

/-- The queue has the nodes `l`, and its tail is the last of them. -/
structure IsFifo (next : α → Option α) (f : Fifo α) (l : List α) : Prop where
  linked : Linked next f.head l
  tail : f.tail = l.getLast?

theorem IsFifo.congr {f : Fifo α} (h : IsFifo next f l) (hn : ∀ a ∈ l, next' a = next a) : IsFifo next' f l :=
  ⟨h.linked.congr hn, h.tail⟩

theorem IsFifo.set [DecidableEq α] {f : Fifo α} (h : IsFifo next f l) (ht : t ∉ l) (v : Option α) :
    IsFifo (update next t v) f l :=
  ⟨h.linked.set ht v, h.tail⟩

section Ops

variable [DecidableEq α] {f : Fifo α} {head prev w : Option α} {n : ℕ}

/-- A node is linked behind the last one. -/
def push (next : α → Option α) (f : Fifo α) (t : α) : (α → Option α) × Fifo α :=
  let r := redirect (update next t none) f.head f.tail (some t)
  (r.1, ⟨r.2, some t⟩)

theorem IsFifo.push (h : IsFifo next f l) (ht : t ∉ l) :
    IsFifo (push next f t).1 (push next f t).2 (l ++ [t]) ∧ ∀ a, a ≠ t → a ∉ l → (push next f t).1 a = next a := by
  have hl := h.linked.set ht none
  unfold Links.push
  rw [h.tail]
  refine ⟨⟨seg_append.2 ⟨some t, hl.redirect h.linked.nodup, rfl, ?_⟩, ?_⟩, ?_⟩
  · rw [redirect_of_not_mem ht]
    exact update_self t none next
  · exact getLast?_concat.symm
  · intro a hat hal
    rw [redirect_of_not_mem hal]
    exact update_of_ne hat _ _

/-- The first node is taken off. -/
def pop (next : α → Option α) (f : Fifo α) : Option α × (α → Option α) × Fifo α :=
  match f.head with
  | none => (none, next, f)
  | some t => (some t, update next t none, ⟨next t, if next t = none then none else f.tail⟩)

theorem IsFifo.pop_nil (h : IsFifo next f []) : pop next f = (none, next, f) := by
  have hh : f.head = none := h.linked
  unfold pop
  rw [hh]

theorem IsFifo.pop_cons (h : IsFifo next f (t :: l)) :
    ∃ f', pop next f = (some t, update next t none, f') ∧ IsFifo (update next t none) f' l := by
  obtain ⟨⟨hh, hl⟩, htail⟩ := h
  have hnot := (nodup_cons.1 (Seg.nodup (p := some t) ⟨rfl, hl⟩)).1
  refine ⟨⟨next t, if next t = none then none else f.tail⟩, ?_, ⟨hl.set hnot none, ?_⟩⟩
  · unfold pop
    rw [hh]
  · cases l with
    | nil =>
      have hn : next t = none := hl
      simp [hn]
    | cons b l =>
      have hn : next t = some b := hl.1
      simp only [hn, htail, getLast?_cons_cons, if_neg (Option.some_ne_none b)]

/-- All nodes are taken off and put in front of the list at `w`, one by one. -/
def drain : ℕ → (α → Option α) → Fifo α → Option α → (α → Option α) × Fifo α × Option α
  | 0, next, f, w => (next, f, w)
  | n + 1, next, f, w =>
    match pop next f with
    | (none, next, f) => (next, f, w)
    | (some t, next, f) => drain n (update next t w) f (some t)

/-- All nodes are taken off: those that pass the test are put in front of the list at `w`, the others go to the
queue `keep`. -/
def sift (test : α → Bool) : ℕ → (α → Option α) → Fifo α → Option α → Fifo α → (α → Option α) × Fifo α × Option α
  | 0, next, _, w, keep => (next, keep, w)
  | n + 1, next, f, w, keep =>
    match pop next f with
    | (none, next, _) => (next, keep, w)
    | (some t, next, f) =>
      if test t then sift test n (update next t w) f (some t) keep
      else sift test n (push next keep t).1 f w (push next keep t).2

theorem IsFifo.sift (test : α → Bool) {K : List α} {keep : Fifo α} (h : IsFifo next f l) (hW : Linked next w W)
    (hK : IsFifo next keep K) (hlW : l.Disjoint W) (hlK : l.Disjoint K) (hWK : W.Disjoint K) (hn : l.length ≤ n) :
    IsFifo (sift test n next f w keep).1 (sift test n next f w keep).2.1 (K ++ l.filter (fun a => !test a)) ∧
      Linked (sift test n next f w keep).1 (sift test n next f w keep).2.2 ((l.filter test).reverse ++ W) ∧
      ∀ a, a ∉ l → a ∉ K → (sift test n next f w keep).1 a = next a := by
  induction n generalizing next f w l W K keep with
  | zero =>
    have hl : l = [] := length_eq_zero_iff.1 (Nat.le_zero.1 hn)
    subst hl
    refine ⟨?_, hW, fun _ _ _ => rfl⟩
    rw [filter_nil, append_nil]
    exact hK
  | succ n ih =>
    unfold Links.sift
    cases l with
    | nil =>
      rw [h.pop_nil]
      refine ⟨?_, hW, fun _ _ _ => rfl⟩
      rw [filter_nil, append_nil]
      exact hK
    | cons t l =>
      obtain ⟨f', hpop, hf'⟩ := h.pop_cons
      have hnot := (nodup_cons.1 h.linked.nodup).1
      obtain ⟨htW, hlW⟩ := disjoint_cons_left.1 hlW
      obtain ⟨htK, hlK⟩ := disjoint_cons_left.1 hlK
      have hln : l.length ≤ n := by simpa using hn
      have hne : ∀ {b}, b ∈ l → b ≠ t := by
        rintro b hb rfl
        exact hnot hb
      rw [hpop]
      simp only [update_idem]
      by_cases htest : test t
      · -- the node goes in front of the list
        rw [if_pos htest]
        have hf'' : IsFifo (update next t w) f' l := by
          rw [← update_idem (a := t) none w next]
          exact hf'.set hnot w
        have hW' : Linked (update next t w) (some t) (t :: W) := by
          refine ⟨rfl, ?_⟩
          rw [update_self]
          exact hW.set htW w
        obtain ⟨h1, h2, h3⟩ := ih hf'' hW' (hK.set htK w) (disjoint_cons_right.2 ⟨hnot, hlW⟩) hlK
          (disjoint_cons_left.2 ⟨htK, hWK⟩) hln
        refine ⟨?_, ?_, ?_⟩
        · rw [filter_cons_of_neg (by simp [htest])]
          exact h1
        · rw [filter_cons_of_pos htest, reverse_cons, append_assoc]
          exact h2
        · intro b hb hbK
          rw [h3 b (fun hbl => hb (mem_cons_of_mem _ hbl)) hbK]
          apply update_of_ne
          rintro rfl
          exact hb mem_cons_self
      · -- the node is kept
        rw [if_neg htest]
        obtain ⟨hK', hkeep⟩ := (hK.set htK none).push htK
        have hother : ∀ {b}, b ≠ t → b ∉ K → (Links.push (update next t none) keep t).1 b = next b := by
          intro b hb hbK
          rw [hkeep b hb hbK]
          exact update_of_ne hb _ _
        have hf'' : IsFifo (Links.push (update next t none) keep t).1 f' l := by
          apply hf'.congr
          intro b hb
          rw [hother (hne hb) (hlK hb), update_of_ne (hne hb)]
        have hW' : Linked (Links.push (update next t none) keep t).1 w W :=
          hW.congr fun b hb => hother (by rintro rfl; exact htW hb) (hWK hb)
        obtain ⟨h1, h2, h3⟩ := ih hf'' hW' hK' hlW (disjoint_append_right.2 ⟨hlK, disjoint_singleton.2 hnot⟩)
          (disjoint_append_right.2 ⟨hWK, disjoint_singleton.2 htW⟩) hln
        refine ⟨?_, ?_, ?_⟩
        · rw [filter_cons_of_pos (by simpa using htest)]
          rw [append_assoc] at h1
          exact h1
        · rw [filter_cons_of_neg htest]
          exact h2
        · intro b hb hbK
          have hbt : b ≠ t := by
            rintro rfl
            exact hb mem_cons_self
          rw [h3 b (fun hbl => hb (mem_cons_of_mem _ hbl)) ?_, hother hbt hbK]
          intro hbK'
          rcases mem_append.1 hbK' with hbK' | hbK'
          · exact hbK hbK'
          · exact hbt (mem_singleton.1 hbK')

/-- Draining is sifting with a test that every node passes. -/
theorem IsFifo.drain_eq_sift (h : IsFifo next f l) (hn : l.length ≤ n) :
    drain n next f w = Links.sift (fun _ => true) n next f w ⟨none, none⟩ := by
  have hempty : ∀ {next : α → Option α} {f : Fifo α}, IsFifo next f [] → f = ⟨none, none⟩ := by
    rintro next ⟨head, tail⟩ ⟨hhead, htail⟩
    cases hhead
    cases htail
    rfl
  induction n generalizing next f w l with
  | zero =>
    have hl : l = [] := length_eq_zero_iff.1 (Nat.le_zero.1 hn)
    subst hl
    rw [hempty h]
    rfl
  | succ n ih =>
    unfold drain Links.sift
    cases l with
    | nil => rw [h.pop_nil, hempty h]
    | cons t l =>
      obtain ⟨f', hpop, hf'⟩ := h.pop_cons
      rw [hpop]
      simp only [update_idem, if_true]
      apply ih _ (by simpa using hn)
      rw [← update_idem (a := t) none w next]
      exact hf'.set (nodup_cons.1 h.linked.nodup).1 w

/-- The search for a node: what points at it, if it is found. -/
def seek (next : α → Option α) (t : α) : ℕ → Option α → Option α → Option (Option α)
  | 0, _, _ => none
  | _ + 1, _, none => none
  | n + 1, prev, some a => if a = t then some prev else seek next t n (some a) (next a)

theorem Seg.seek_of_not_mem (h : Linked next p l) (ht : t ∉ l) : seek next t n prev p = none := by
  induction n generalizing prev p l with
  | zero => rfl
  | succ n ih =>
    cases l with
    | nil =>
      rw [show p = none from h]
      rfl
    | cons a l =>
      have hat : a ≠ t := by
        rintro rfl
        exact ht mem_cons_self
      rw [h.1]
      unfold seek
      rw [if_neg hat]
      exact ih h.2 fun hm => ht (mem_cons_of_mem _ hm)

theorem Seg.seek_append (h : Linked next p (A ++ t :: B)) (ht : t ∉ A) (hn : A.length < n) :
    seek next t n prev p = some (A.getLast?.or prev) := by
  induction n generalizing prev p A with
  | zero => omega
  | succ n ih =>
    cases A with
    | nil =>
      rw [show p = some t from h.1]
      unfold seek
      rw [if_pos rfl]
      rfl
    | cons a A =>
      have hat : a ≠ t := by
        rintro rfl
        exact ht mem_cons_self
      rw [h.1]
      unfold seek
      rw [if_neg hat, ih h.2 (fun hm => ht (mem_cons_of_mem _ hm)) (by simpa using hn)]
      cases A with
      | nil => rfl
      | cons b A => simp [getLast?_cons]

/-- A node is searched and taken out; its own link is cleared in any case. The last part says whether and
behind which node it was found. -/
def unlink (n : ℕ) (next : α → Option α) (head : Option α) (t : α) : (α → Option α) × Option α × Option (Option α) :=
  match seek next t n none head with
  | none => (update next t none, head, none)
  | some prev =>
    let r := redirect next head prev (next t)
    (update r.1 t none, r.2, some prev)

theorem Seg.unlink_of_not_mem (h : Linked next head l) (ht : t ∉ l) :
    unlink n next head t = (update next t none, head, none) := by
  unfold unlink
  rw [h.seek_of_not_mem ht]

theorem Seg.unlink_append (h : Linked next head (A ++ t :: B)) (hn : (A ++ t :: B).length ≤ n) :
    (unlink n next head t).2.2 = some A.getLast? ∧ Linked (unlink n next head t).1 (unlink n next head t).2.1 (A ++ B) ∧
      ∀ a, a ∉ A ++ t :: B → (unlink n next head t).1 a = next a := by
  have hA : t ∉ A := fun hm => (nodup_cons.1 (nodup_middle.1 h.nodup)).1 (mem_append_left _ hm)
  have hlen : A.length < n := by
    simp only [length_append, length_cons] at hn
    omega
  obtain ⟨hout, hkeep⟩ := h.takeOut none
  unfold unlink
  rw [h.seek_append hA hlen, Option.or_none]
  refine ⟨rfl, hout, fun b hb => hkeep b ?_ ?_⟩
  · intro hbA
    exact hb (mem_append_left _ hbA)
  · rintro rfl
    exact hb (mem_append_right _ mem_cons_self)

/-- A node of a queue is taken out, with the repair of the tail. -/
def removeNode (n : ℕ) (next : α → Option α) (f : Fifo α) (t : α) : (α → Option α) × Fifo α :=
  let r := unlink n next f.head t
  (r.1, ⟨r.2.1, match r.2.2 with
    | none => f.tail
    | some prev => if f.tail = some t then prev else f.tail⟩)

theorem IsFifo.removeNode_of_not_mem (h : IsFifo next f l) (ht : t ∉ l) :
    Links.removeNode n next f t = (update next t none, f) := by
  unfold Links.removeNode
  rw [h.linked.unlink_of_not_mem ht]

theorem IsFifo.removeNode (h : IsFifo next f l) (ht : t ∈ l) (hn : l.length ≤ n) :
    ∃ l', IsFifo (removeNode n next f t).1 (removeNode n next f t).2 l' ∧ (∀ a, a ∈ l' ↔ a ∈ l ∧ a ≠ t) ∧
      ∀ a, a ∉ l → (removeNode n next f t).1 a = next a := by
  obtain ⟨A, B, rfl⟩ := append_of_mem ht
  have hnd := h.linked.nodup
  obtain ⟨hfound, hlinked, hkeep⟩ := h.linked.unlink_append hn
  refine ⟨A ++ B, ⟨hlinked, ?_⟩, ?_, hkeep⟩
  · unfold Links.removeNode
    simp only [hfound, h.tail]
    rcases eq_nil_or_concat B with rfl | ⟨B, c, rfl⟩
    · simp
    · have hct : c ≠ t := by
        rintro rfl
        exact (nodup_cons.1 (nodup_append.1 hnd).2.1).1 (by simp)
      rw [concat_eq_append, ← cons_append, ← append_assoc, ← append_assoc, getLast?_concat,
        getLast?_concat, if_neg (by simpa using hct)]
  · intro a
    rw [perm_middle.mem_iff, and_comm, ← (nodup_middle.1 hnd).mem_erase_iff, erase_cons_head]

/-- The nodes that meet `test` are taken out and put in front of the list at `w`. `prev` is the last node
that stays so far. -/
def sieve (test : α → Bool) : ℕ → Option α → (α → Option α) → Option α → Option α → (α → Option α) × Option α × Option α
  | 0, _, next, head, w => (next, head, w)
  | n + 1, prev, next, head, w =>
    match deref next head prev with
    | none => (next, head, w)
    | some t =>
      if test t then
        let r := redirect next head prev (next t)
        sieve test n prev (update r.1 t w) r.2 (some t)
      else sieve test n (some t) next head w

theorem Seg.sieve (test : α → Bool) (h : Linked next head (A ++ l)) (hW : Linked next w W)
    (hd : (A ++ l).Disjoint W) (hn : l.length ≤ n) :
    Linked (sieve test n A.getLast? next head w).1 (sieve test n A.getLast? next head w).2.1 (A ++ l.filter fun a => !test a) ∧
      Linked (sieve test n A.getLast? next head w).1 (sieve test n A.getLast? next head w).2.2 ((l.filter test).reverse ++ W) ∧
      ∀ a, a ∉ A ++ l → (sieve test n A.getLast? next head w).1 a = next a := by
  induction n generalizing A l next head w W with
  | zero =>
    have hl : l = [] := length_eq_zero_iff.1 (Nat.le_zero.1 hn)
    subst hl
    exact ⟨h, hW, fun _ _ => rfl⟩
  | succ n ih =>
    obtain ⟨q, hA, hq⟩ := seg_append.1 h
    have hnd := h.nodup
    unfold Links.sieve
    rw [hA.deref_eq]
    cases l with
    | nil =>
      rw [show q = none from hq]
      exact ⟨h, hW, fun _ _ => rfl⟩
    | cons t l =>
      obtain ⟨rfl, hrest⟩ := hq
      have ht : t ∉ A ++ l := (nodup_cons.1 (nodup_middle.1 hnd)).1
      have htW : t ∉ W := hd (mem_append_right _ mem_cons_self)
      have hgrow : ∀ {b}, b ∈ A ++ l → b ∈ A ++ t :: l := fun hb =>
        perm_middle.mem_iff.2 (mem_cons_of_mem t hb)
      simp only
      split
      · rename_i htest
        obtain ⟨h', hkeep⟩ := h.takeOut w
        have hW' : Linked (update (Links.redirect next head A.getLast? (next t)).1 t w) (some t) (t :: W) := by
          refine ⟨rfl, ?_⟩
          rw [update_self]
          refine hW.congr fun b hb => hkeep b ?_ (ne_of_mem_of_not_mem hb htW)
          intro hbA
          exact hd (mem_append_left _ hbA) hb
        obtain ⟨h1, h2, h3⟩ := ih h' hW' (disjoint_cons_right.2 ⟨ht, fun _ hb => hd (hgrow hb)⟩) (by simpa using hn)
        refine ⟨?_, ?_, ?_⟩
        · rw [filter_cons_of_neg (by simp [htest])]
          exact h1
        · rw [filter_cons_of_pos htest, reverse_cons, append_assoc]
          exact h2
        · intro b hb
          rw [h3 b fun hm => hb (hgrow hm)]
          apply hkeep
          · exact fun hbA => hb (mem_append_left _ hbA)
          · rintro rfl
            exact hb (mem_append_right _ mem_cons_self)
      · rename_i htest
        have happ : A ++ t :: l = (A ++ [t]) ++ l := by simp
        have hlast : (A ++ [t]).getLast? = some t := getLast?_concat
        rw [happ] at h hd
        obtain ⟨h1, h2, h3⟩ := ih h hW hd (by simpa using hn)
        rw [hlast] at h1 h2 h3
        refine ⟨?_, ?_, ?_⟩
        · rw [filter_cons_of_pos (by simpa using htest)]
          simpa using h1
        · rw [filter_cons_of_neg (by simpa using htest)]
          exact h2
        · rw [happ]
          exact h3

end Ops

/-! ## Lists that are being emptied -/

/-- The nodes of `P` are on a list of which `held` has the rest and the node taken off the front. -/
abbrev Emptying (next : α → Option α) (held : Option α × Option α) (P : α → Prop) : Prop :=
  ∃ l, Linked next held.1 l ∧ (∀ t, P t ↔ t ∈ l ∨ held.2 = some t) ∧ ∀ t ∈ l, held.2 ≠ some t

section Privates

variable {P P' : α → Prop} {held : Option α × Option α}

theorem Emptying.congr (h : Emptying next held P) (hn : ∀ t, P t → next' t = next t) (hP : ∀ t, P' t ↔ P t) :
    Emptying next' held P' := by
  obtain ⟨l, hl, hmem, hu⟩ := h
  exact ⟨l, hl.congr fun t ht => hn t ((hmem t).2 (.inl ht)), fun t => (hP t).trans (hmem t), hu⟩

theorem Emptying.empty (h : Emptying next (none, none) P) (t : α) : ¬P t := by
  obtain ⟨l, hl, hmem, -⟩ := h
  rw [hmem t, hl.eq_nil]
  rintro (hm | hm)
  · cases hm
  · cases hm

theorem Emptying.takeOff (h : Emptying next (some t, none) P) : Emptying next (next t, some t) P := by
  obtain ⟨l, hl, hmem, -⟩ := h
  cases l with
  | nil => cases hl
  | cons u l =>
    cases hl.1
    refine ⟨l, hl.2, fun v => ?_, ?_⟩
    · rw [hmem v]
      simp [eq_comm, or_comm]
    · rintro v hv hvt
      cases hvt
      exact (nodup_cons.1 hl.nodup).1 hv

theorem Emptying.taken (h : Emptying next (p, some t) P) : P t := by
  obtain ⟨l, -, hmem, -⟩ := h
  exact (hmem t).2 (.inr rfl)

/-- The link of the node that was taken off is cleared. -/
theorem Emptying.clear [DecidableEq α] (h : Emptying next (p, some t) P) (hP : ∀ u, P' u ↔ P u ∧ u ≠ t) :
    Emptying (update next t none) (p, none) P' := by
  obtain ⟨l, hl, hmem, hu⟩ := h
  refine ⟨l, hl.set (fun ht => hu t ht rfl) none, fun u => ?_, nofun⟩
  rw [hP u, hmem u]
  grind

end Privates

end Links
