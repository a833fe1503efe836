/-
# Minipython.Minios.RingTry — as many elements as there is room for (ring.h)

`ring_try_enqueue_multiple` and `ring_try_dequeue_multiple` loop `while (!ret || i < count)`. The first goes
on as long as it has room, whatever `count` says, and then up to `count`; in the second `ret` is never set,
so it empties the ring. `NULL` is no element, so an element of a ring is an option here.

What is asked for is in `TryEnqueueOk` and `TryDequeueOk`: as many elements move as there are, and as fit,
and the number of them is returned. The first function meets it exactly if `count` is one more than there
are free slots, the second exactly if it has no `NULL` to stumble over and `count` is not below the number
of elements: the two cases in which the loop happens to end where it should. `ring_try_multiple` says so for
every ring, and also that both loops come to an end on every ring, since each turn takes a slot or an
element.

`ring_try_overruns` is a ring of four slots where the first reads two elements behind the array of its
caller.
-/
import Minipython.Lib.Loops
import Minipython.Minios.Ring

namespace Minipython.Minios

open Minipython.Lib

universe u

variable {α : Type u}

/-! ## The code -/

/-- How `ring_try_enqueue_multiple` ends: the number that it returns, the ring, and the indices of
`elements` that it has read. -/
structure TryEnqueued (α : Type u) where
  returned : UInt32
  ring : Ring α
  reads : List Nat

/-- The loop of `ring_try_enqueue_multiple`. -/
def tryEnqueueLoop (elements : Nat → α) (count : UInt32) :
    Nat → Int → UInt32 → Ring α → Option (TryEnqueued α)
  | 0, _, _, _ => none
  | fuel + 1, ret, i, r =>
      if ret = 0 ∨ i < count then
        let s := ringEnqueue r (elements i.toNat)
        (tryEnqueueLoop elements count fuel s.1 (i + 1) s.2).map fun t =>
          { t with reads := i.toNat :: t.reads }
      else some ⟨if ret = 0 then i else i - 1, r, []⟩

/-- `ring_try_enqueue_multiple` within a number of turns. -/
def ringTryEnqueueMultiple (r : Ring α) (elements : Nat → α) (count : UInt32) (fuel : Nat) :
    Option (TryEnqueued α) :=
  tryEnqueueLoop elements count fuel 0 0 r

/-- How `ring_try_dequeue_multiple` ends: the number that it returns, the ring, and what it has written to
which index of `elements`. -/
structure TryDequeued (α : Type u) where
  returned : UInt32
  ring : Ring (Option α)
  writes : List (Nat × α)

/-- The loop of `ring_try_dequeue_multiple`. An element that is `NULL` looks like an empty ring. -/
def tryDequeueLoop (count : UInt32) (ret : Int) :
    Nat → UInt32 → Ring (Option α) → Option (TryDequeued α)
  | 0, _, _ => none
  | fuel + 1, i, r =>
      if ret = 0 ∨ i < count then
        let s := ringDequeue r
        match s.1.join with
        | none => some ⟨i, s.2, []⟩
        | some e =>
            (tryDequeueLoop count ret fuel (i + 1) s.2).map fun t =>
              { t with writes := (i.toNat, e) :: t.writes }
      else some ⟨i, r, []⟩

/-- `ring_try_dequeue_multiple` within a number of turns. -/
def ringTryDequeueMultiple (r : Ring (Option α)) (count : UInt32) (fuel : Nat) :
    Option (TryDequeued α) :=
  tryDequeueLoop count 0 fuel 0 r

/-! ## What the two should do -/

/-- The slots of a ring with `stored` elements that are free. -/
def freeSlots (r : Ring α) (stored : Nat) : Nat := r.size.toNat - 1 - stored

/-- The first elements go to the back of the ring, as many as there is room for, and no element is read
behind the array. -/
def TryEnqueueOk (r : Ring α) (q : List α) (elements : Nat → α) (count : UInt32) : Prop :=
  ∃ t, Returns (ringTryEnqueueMultiple r elements count) t ∧
    t.returned.toNat = min count.toNat (freeSlots r q.length) ∧
    Holds t.ring (q ++ (List.range (min count.toNat (freeSlots r q.length))).map elements) ∧
    ∀ j ∈ t.reads, j < count.toNat

/-- As many elements as are asked for, or as there are, leave the front of the ring for the array, and none
is written behind it. -/
def TryDequeueOk (r : Ring (Option α)) (q : List (Option α)) (count : UInt32) : Prop :=
  ∃ t, Returns (ringTryDequeueMultiple r count) t ∧
    t.returned.toNat = min count.toNat q.length ∧
    Holds t.ring (q.drop (min count.toNat q.length)) ∧
    t.writes.map (fun w => some w.2) = q.take (min count.toNat q.length) ∧
    t.writes.map Prod.fst = List.range (min count.toNat q.length) ∧
    ∀ w ∈ t.writes, w.1 < count.toNat

/-! ## Enqueueing -/

section Enqueue

variable {r : Ring α} {q : List α} {elements : Nat → α} {count i : UInt32}

theorem succ_toNat (h : i.toNat + 1 < 2 ^ 32) : (i + 1).toNat = i.toNat + 1 := by
  rw [UInt32.toNat_add]
  exact Nat.mod_eq_of_lt h

/-- One turn that goes on. -/
theorem tryEnqueueLoop_step {fuel : Nat} {ret : Int} {t : TryEnqueued α} (h : ret = 0 ∨ i < count)
    (ht : tryEnqueueLoop elements count fuel (ringEnqueue r (elements i.toNat)).1 (i + 1)
      (ringEnqueue r (elements i.toNat)).2 = some t) :
    tryEnqueueLoop elements count (fuel + 1) ret i r = some { t with reads := i.toNat :: t.reads } := by
  rw [tryEnqueueLoop, if_pos h]
  dsimp only
  rw [ht]
  rfl

/-- In a full ring the loop only counts up to `count`. -/
theorem tryEnqueueLoop_full (elements : Nat → α) (count : UInt32) (h : Holds r q)
    (hfull : freeSlots r q.length = 0) (hpos : 0 < i.toNat) :
    ∃ t, (∀ fuel, count.toNat - i.toNat < fuel → tryEnqueueLoop elements count fuel (-1) i r = some t) ∧
      t.returned.toNat = max i.toNat count.toNat - 1 ∧ t.ring = r ∧
      ∀ j, j ∈ t.reads ↔ i.toNat ≤ j ∧ j < count.toNat := by
  have hne : (-1 : Int) ≠ 0 := by decide
  have hspec := ringEnqueue_spec h (elements i.toNat)
  unfold freeSlots at hfull
  rw [if_neg (by omega)] at hspec
  -- induction on the turns that are left up to `count`
  induction hk : count.toNat - i.toNat generalizing i with
  | zero =>
      have hend : ¬((-1 : Int) = 0 ∨ i < count) := by
        rintro (h0 | hlt)
        · exact hne h0
        · have hlt := UInt32.lt_iff_toNat_lt.1 hlt
          omega
      refine ⟨⟨i - 1, r, []⟩, fun fuel hf => ?_, ?_, rfl, fun j => ?_⟩
      · obtain ⟨n, rfl⟩ := Nat.exists_eq_succ_of_ne_zero (by omega : fuel ≠ 0)
        rw [tryEnqueueLoop, if_neg hend, if_neg hne]
      · have hone : (1 : UInt32).toNat = 1 := rfl
        show (i - 1).toNat = _
        rw [UInt32.toNat_sub_of_le _ _ (UInt32.le_iff_toNat_le.2 (by omega)), hone]
        omega
      · simp only [List.not_mem_nil, false_iff]
        omega
  | succ k ih =>
      have hlt : i.toNat < count.toNat := by omega
      have hc := count.toNat_lt
      have hsucc : (i + 1).toNat = i.toNat + 1 := succ_toNat (by omega)
      have hspec' := ringEnqueue_spec h (elements (i + 1).toNat)
      rw [if_neg (by omega)] at hspec'
      obtain ⟨t, hrun, hret, hring, hreads⟩ := ih (by omega) hspec' (by omega)
      refine ⟨{ t with reads := i.toNat :: t.reads }, fun fuel hf => ?_, ?_, hring, fun j => ?_⟩
      · obtain ⟨n, rfl⟩ := Nat.exists_eq_succ_of_ne_zero (by omega : fuel ≠ 0)
        refine tryEnqueueLoop_step (Or.inr (UInt32.lt_iff_toNat_lt.2 hlt)) ?_
        rw [hspec]
        exact hrun n (by omega)
      · rw [hret, hsucc]
        omega
      · rw [List.mem_cons, hreads, hsucc]
        omega

/-- The loop fills the ring, finds it full, and then counts up to `count`. -/
theorem tryEnqueueLoop_spec (elements : Nat → α) (count : UInt32) (h : Holds r q)
    (hi : i.toNat + freeSlots r q.length + 1 < 2 ^ 32) :
    ∃ t, (∀ fuel, freeSlots r q.length + count.toNat + 1 < fuel →
        tryEnqueueLoop elements count fuel 0 i r = some t) ∧
      t.returned.toNat = max (i.toNat + freeSlots r q.length + 1) count.toNat - 1 ∧
      Holds t.ring (q ++ (List.range' i.toNat (freeSlots r q.length)).map elements) ∧
      ∀ j, j ∈ t.reads ↔ i.toNat ≤ j ∧ j < max (i.toNat + freeSlots r q.length + 1) count.toNat := by
  have hspec := ringEnqueue_spec h (elements i.toNat)
  have hsucc : (i + 1).toNat = i.toNat + 1 := succ_toNat (by omega)
  have hroom := h.room
  -- induction on the slots that are free
  induction hk : freeSlots r q.length generalizing i r q with
  | zero =>
      have hfull := hk
      unfold freeSlots at hk
      rw [if_neg (by omega)] at hspec
      obtain ⟨t, hrun, hret, hring, hreads⟩ :=
        tryEnqueueLoop_full elements count (i := i + 1) h hfull (by omega)
      refine ⟨{ t with reads := i.toNat :: t.reads }, fun fuel hf => ?_, ?_, ?_, fun j => ?_⟩
      · obtain ⟨n, rfl⟩ := Nat.exists_eq_succ_of_ne_zero (by omega : fuel ≠ 0)
        refine tryEnqueueLoop_step (Or.inl rfl) ?_
        rw [hspec]
        exact hrun n (by omega)
      · rw [hret, hsucc]
      · rw [hring]
        simpa using h
      · rw [List.mem_cons, hreads, hsucc]
        omega
  | succ k ih =>
      unfold freeSlots at hk
      rw [if_pos (by omega)] at hspec
      obtain ⟨r', he, hh, hs⟩ := hspec
      have hfree : freeSlots r' (q ++ [elements i.toNat]).length = k := by
        rw [freeSlots, hs, List.length_append, List.length_singleton]
        omega
      rw [freeSlots, hk] at hi
      obtain ⟨t, hrun, hret, hring, hreads⟩ := ih (i := i + 1) hh (by rw [hfree, hsucc]; omega)
        (ringEnqueue_spec hh _) (succ_toNat (by rw [hsucc]; omega)) hh.room hfree
      refine ⟨{ t with reads := i.toNat :: t.reads }, fun fuel hf => ?_, ?_, ?_, fun j => ?_⟩
      · obtain ⟨n, rfl⟩ := Nat.exists_eq_succ_of_ne_zero (by omega : fuel ≠ 0)
        refine tryEnqueueLoop_step (Or.inl rfl) ?_
        rw [he]
        exact hrun n (by omega)
      · rw [hret, hsucc]
        omega
      · rw [List.append_assoc, List.singleton_append, hsucc] at hring
        exact hring
      · rw [List.mem_cons, hreads, hsucc]
        omega

theorem freeSlots_lt (h : Holds r q) : freeSlots r q.length + 1 < 2 ^ 32 := by
  have hsize := h.geom.size_le
  unfold freeSlots
  omega

/-- How `ring_try_enqueue_multiple` ends on every ring. -/
theorem ringTryEnqueueMultiple_spec (elements : Nat → α) (count : UInt32) (h : Holds r q) :
    ∃ t, Returns (ringTryEnqueueMultiple r elements count) t ∧
      t.returned.toNat = max (freeSlots r q.length + 1) count.toNat - 1 ∧
      Holds t.ring (q ++ (List.range (freeSlots r q.length)).map elements) ∧
      ∀ j, j ∈ t.reads ↔ j < max (freeSlots r q.length + 1) count.toNat := by
  have hzero : (0 : UInt32).toNat = 0 := rfl
  have hlt := freeSlots_lt h
  obtain ⟨t, hrun, hret, hring, hreads⟩ := tryEnqueueLoop_spec elements count (i := 0) h (by omega)
  rw [hzero, Nat.zero_add] at hret hreads
  rw [hzero, ← List.range_eq_range'] at hring
  exact ⟨t, ⟨_, fun fuel hf => hrun fuel (Nat.lt_of_succ_le hf)⟩, hret, hring,
    fun j => (hreads j).trans (and_iff_right (Nat.zero_le j))⟩

/-- Enqueueing works if the elements are one more than there is room for, and not otherwise: with fewer, the
loop reads on behind them, with more it counts elements that it could not enqueue. -/
theorem tryEnqueueOk_iff (h : Holds r q) :
    TryEnqueueOk r q elements count ↔ count.toNat = freeSlots r q.length + 1 := by
  obtain ⟨t, hreturns, hret, hring, hreads⟩ := ringTryEnqueueMultiple_spec elements count h
  refine hreturns.exists_iff.trans ⟨?_, fun hcount => ?_⟩
  · rintro ⟨hmin, -, hall⟩
    have hlast := hall (freeSlots r q.length) ((hreads _).2 (by omega))
    omega
  · have hmin : min count.toNat (freeSlots r q.length) = freeSlots r q.length := by omega
    rw [hmin]
    refine ⟨by omega, hring, fun j hj => ?_⟩
    have hj := (hreads j).1 hj
    omega

end Enqueue

/-! ## Dequeueing -/

section Dequeue

variable {r : Ring (Option α)} {q : List (Option α)} {count i : UInt32}

/-- The elements in front of the first `NULL`. -/
def leading (q : List (Option α)) : Nat := (q.takeWhile Option.isSome).length

theorem leading_cons_some (e : α) (q : List (Option α)) : leading (some e :: q) = leading q + 1 := rfl

theorem leading_le (q : List (Option α)) : leading q ≤ q.length :=
  (List.takeWhile_sublist Option.isSome).length_le

theorem leading_eq_iff (q : List (Option α)) : leading q = q.length ↔ none ∉ q := by
  induction q with
  | nil => exact iff_of_true rfl List.not_mem_nil
  | cons e q ih =>
      cases e with
      | none =>
          refine iff_of_false (fun h => ?_) fun h => h List.mem_cons_self
          exact absurd h (Nat.succ_ne_zero _).symm
      | some e =>
          rw [leading_cons_some, List.length_cons, Nat.add_right_cancel_iff, ih, List.mem_cons]
          simp

/-- The loop empties the ring up to the first `NULL`, which it takes out as well. -/
theorem tryDequeueLoop_spec (count : UInt32) (h : Holds r q) (hi : i.toNat + q.length < 2 ^ 32) :
    ∃ t, (∀ fuel, q.length < fuel → tryDequeueLoop count 0 fuel i r = some t) ∧
      t.returned.toNat = i.toNat + leading q ∧ Holds t.ring (q.drop (leading q + 1)) ∧
      t.writes.map (fun w => some w.2) = q.take (leading q) ∧
      t.writes.map Prod.fst = List.range' i.toNat (leading q) := by
  have hspec := ringDequeue_spec h
  induction q generalizing i r with
  | nil =>
      refine ⟨⟨i, r, []⟩, fun fuel hf => ?_, rfl, h, rfl, rfl⟩
      obtain ⟨n, rfl⟩ := Nat.exists_eq_succ_of_ne_zero (Nat.ne_of_gt hf)
      rw [tryDequeueLoop, if_pos (Or.inl rfl), hspec]
      rfl
  | cons e q ih =>
      obtain ⟨r', he, hh, -⟩ := hspec
      rw [List.length_cons] at hi
      cases e with
      | none =>
          refine ⟨⟨i, r', []⟩, fun fuel hf => ?_, rfl, hh, rfl, rfl⟩
          obtain ⟨n, rfl⟩ := Nat.exists_eq_succ_of_ne_zero (by omega : fuel ≠ 0)
          rw [tryDequeueLoop, if_pos (Or.inl rfl), he]
          rfl
      | some e =>
          have hsucc : (i + 1).toNat = i.toNat + 1 := succ_toNat (by omega)
          obtain ⟨t, hrun, hret, hring, hvals, hidx⟩ :=
            ih (i := i + 1) hh (by rw [hsucc]; omega) (ringDequeue_spec hh)
          rw [hsucc] at hret hidx
          refine ⟨{ t with writes := (i.toNat, e) :: t.writes }, fun fuel hf => ?_, ?_, hring, ?_, ?_⟩
          · rw [List.length_cons] at hf
            obtain ⟨n, rfl⟩ := Nat.exists_eq_succ_of_ne_zero (by omega : fuel ≠ 0)
            rw [tryDequeueLoop, if_pos (Or.inl rfl), he]
            show (tryDequeueLoop count 0 n (i + 1) r').map _ = _
            rw [hrun n (by omega)]
            rfl
          · rw [hret, leading_cons_some]
            omega
          · rw [leading_cons_some, List.take_succ_cons, List.map_cons, hvals]
          · rw [leading_cons_some, List.range'_succ, List.map_cons, hidx]

/-- How `ring_try_dequeue_multiple` ends on every ring, whatever `count` is. -/
theorem ringTryDequeueMultiple_spec (count : UInt32) (h : Holds r q) :
    ∃ t, Returns (ringTryDequeueMultiple r count) t ∧ t.returned.toNat = leading q ∧
      Holds t.ring (q.drop (leading q + 1)) ∧
      t.writes.map (fun w => some w.2) = q.take (leading q) ∧
      t.writes.map Prod.fst = List.range (leading q) := by
  have hzero : (0 : UInt32).toNat = 0 := rfl
  have hsize := h.geom.size_le
  have hroom := h.room
  obtain ⟨t, hrun, hret, hring, hvals, hidx⟩ := tryDequeueLoop_spec count (i := 0) h (by omega)
  rw [hzero, Nat.zero_add] at hret
  rw [hzero, ← List.range_eq_range'] at hidx
  exact ⟨t, ⟨_, fun fuel hf => hrun fuel (Nat.lt_of_succ_le hf)⟩, hret, hring, hvals, hidx⟩

/-- Dequeueing works if all that the ring has is asked for and none of it is `NULL`, and not otherwise. -/
theorem tryDequeueOk_iff (h : Holds r q) :
    TryDequeueOk r q count ↔ none ∉ q ∧ q.length ≤ count.toNat := by
  have hle := leading_le q
  obtain ⟨t, hreturns, hret, hring, hvals, hidx⟩ := ringTryDequeueMultiple_spec count h
  refine hreturns.exists_iff.trans ⟨?_, ?_⟩
  · rintro ⟨hmin, hleft, -⟩
    -- a `NULL` is one element more that the ring has lost
    have h1 := ringCount_eq hring
    have h2 := ringCount_eq hleft
    rw [List.length_drop] at h1 h2
    have hall : leading q = q.length := by omega
    exact ⟨(leading_eq_iff q).1 hall, by omega⟩
  · rintro ⟨hnone, hcount⟩
    have hall := (leading_eq_iff q).2 hnone
    have hmin : min count.toNat q.length = q.length := by omega
    rw [hall] at hret hring hvals hidx
    rw [hmin]
    refine ⟨hret, ?_, hvals, hidx, fun w hw => ?_⟩
    · rw [List.drop_of_length_le (Nat.le_succ _)] at hring
      rwa [List.drop_of_length_le (Nat.le_refl _)]
    · have hmem : w.1 ∈ t.writes.map Prod.fst := List.mem_map_of_mem hw
      rw [hidx, List.mem_range] at hmem
      omega

end Dequeue

/-- Both functions end on every ring, and work in the two cases above only. As many free slots as `count`
less one for the first; for the second no `NULL` among the elements, and `count` not below their number. -/
theorem ring_try_multiple {r : Ring (Option α)} {q : List (Option α)} (h : Holds r q)
    (elements : Nat → Option α) (count : UInt32) :
    ((∃ t, Returns (ringTryEnqueueMultiple r elements count) t) ∧
        ∃ t, Returns (ringTryDequeueMultiple r count) t) ∧
      (TryEnqueueOk r q elements count ↔ count.toNat = freeSlots r q.length + 1) ∧
      (TryDequeueOk r q count ↔ none ∉ q ∧ q.length ≤ count.toNat) := by
  obtain ⟨t, henq, -⟩ := ringTryEnqueueMultiple_spec elements count h
  obtain ⟨u, hdeq, -⟩ := ringTryDequeueMultiple_spec count h
  exact ⟨⟨⟨t, henq⟩, ⟨u, hdeq⟩⟩, tryEnqueueOk_iff h, tryDequeueOk_iff h⟩

/-- A new ring of four slots, and the same with two elements in it. -/
def ringOfFour : Ring (Option Nat) := ⟨0, 0, 4, 3, fun _ => none⟩

def ringWithTwo : Ring (Option Nat) := (ringEnqueueMultiple ringOfFour [some 7, some 8]).2

theorem holds_ringOfFour : Holds ringOfFour [] := by
  have ha : allocRing 4 (some fun _ => none) = .ok (some ringOfFour) := rfl
  exact (holds_alloc ha).1

theorem holds_ringWithTwo : Holds ringWithTwo [some 7, some 8] := by
  have hspec := ringEnqueueMultiple_spec holds_ringOfFour [some 7, some 8]
  rw [if_pos (by decide)] at hspec
  obtain ⟨r', he, hh, -⟩ := hspec
  rw [ringWithTwo, he]
  exact hh

/-- With two elements and three slots the third element is read from behind the array, and when one element
is asked for, both leave the ring. -/
theorem ring_try_overruns :
    ¬TryEnqueueOk ringOfFour [] (fun _ => some 9) 2 ∧ ¬TryDequeueOk ringWithTwo [some 7, some 8] 1 :=
  ⟨mt (tryEnqueueOk_iff holds_ringOfFour).1 (by decide),
    mt (tryDequeueOk_iff holds_ringWithTwo).1 (by decide)⟩

theorem ring_try_multiple_two :
    ¬TryEnqueueOk ringWithTwo [some 7, some 8] (fun _ => some 9) 1 ∧
      TryEnqueueOk ringWithTwo [some 7, some 8] (fun _ => some 9) 2 ∧
      TryDequeueOk ringWithTwo [some 7, some 8] 2 := by
  have h := ring_try_multiple holds_ringWithTwo fun _ => some 9
  exact ⟨mt (h 1).2.1.1 (by decide), (h 2).2.1.2 (by decide), (h 2).2.2.2 (by decide)⟩

end Minipython.Minios
