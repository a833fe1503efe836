/-
# Minipython.Minios.Ring — the ring of object references (ring.h, ring.c)

`enq_idx` and `deq_idx` run around an array of a power of two. One slot stays free, so that equal indices
mean empty. All arithmetic is that of `uint32_t`, so the definitions here compute in `UInt32`.

`Holds` says which queue a ring stands for. Each operation on the ring is that of `Lib.Fifo` on the queue,
and `ring_refines_fifo` carries this over whole runs.

Both indices stay below the size, which is a power of two, so that a mask is a remainder (`RingGeom`). The
count is a difference of indices in 32 bits: it wraps where the ring does, and the mask brings it back
(`ringCount_eq`). One spec lemma for each operation says what it answers and which queue it leaves; a call
for several elements is the loop over the call for one, and fails before it has moved any.

The elements are of any type, and a call is one step of a run. `FailsLike` is about one call more after the
run: it fails exactly if the queue has no room or too few elements, and then the ring is as it was.
-/
import Mathlib.Logic.Function.Basic
import Minipython.Lib.Fifo
import Minipython.Shfs.Defs

namespace Minipython.Minios

open Minipython.Lib
open Minipython.Shfs (Fault)

universe u

variable {α : Type u}

/-! ## The code -/

/-- `struct ring`. -/
structure Ring (α : Type u) where
  enqIdx : UInt32
  deqIdx : UInt32
  size : UInt32
  mask : UInt32
  ring : UInt32 → α

/-- `POWER_OF_2`. -/
def powerOf2 (x : UInt32) : Bool := x != 0 && x &&& (x - 1) == 0

/-- `alloc_ring`: `mem` is what `_xmalloc` answers, memory that holds anything. -/
def allocRing (size : UInt32) (mem : Option (UInt32 → α)) : Except Fault (Option (Ring α)) :=
  if ¬(size > 0 ∧ powerOf2 size = true) then .error .assert
  else
    match mem with
    | none => .ok none
    | some ring => .ok (some { enqIdx := 0, deqIdx := 0, size := size, mask := size - 1, ring := ring })

/-- `ring_full`. -/
def ringFull (r : Ring α) : Bool := (r.enqIdx + 1) &&& r.mask == r.deqIdx

/-- `ring_empty`. -/
def ringEmpty (r : Ring α) : Bool := r.enqIdx == r.deqIdx

/-- `ring_count`. -/
def ringCount (r : Ring α) : UInt32 := (r.size + r.enqIdx - r.deqIdx) &&& r.mask

/-- `ring_avail`. -/
def ringAvail (r : Ring α) : UInt32 := (r.mask + r.deqIdx - r.enqIdx) &&& r.mask

/-- `ring_enqueue`: the value that it returns, and the ring. -/
def ringEnqueue (r : Ring α) (element : α) : Int × Ring α :=
  if (r.enqIdx + 1) &&& r.mask = r.deqIdx then (-1, r)
  else (0, { r with
    ring := Function.update r.ring r.enqIdx element, enqIdx := (r.enqIdx + 1) &&& r.mask })

/-- The loop of `ring_enqueue_multiple` over the elements that are left. -/
def enqueueLoop (mask : UInt32) : List α → (UInt32 → α) → UInt32 → (UInt32 → α) × UInt32
  | [], ring, enqIdx => (ring, enqIdx)
  | e :: es, ring, enqIdx =>
      enqueueLoop mask es (Function.update ring enqIdx e) ((enqIdx + 1) &&& mask)

/-- `ring_enqueue_multiple` of an array of `count` elements. -/
def ringEnqueueMultiple (r : Ring α) (elements : List α) : Int × Ring α :=
  if ((r.size - 1) - ringCount r).toNat < elements.length then (-1, r)
  else
    let s := enqueueLoop r.mask elements r.ring r.enqIdx
    (0, { r with ring := s.1, enqIdx := s.2 })

/-- `ring_dequeue`: `none` is the failure, for which it returns `NULL`. -/
def ringDequeue (r : Ring α) : Option α × Ring α :=
  if r.deqIdx = r.enqIdx then (none, r)
  else (some (r.ring r.deqIdx), { r with deqIdx := (r.deqIdx + 1) &&& r.mask })

/-- The loop of `ring_dequeue_multiple` with `n` turns left: what it writes to `elements`, and the index. -/
def dequeueLoop (mask : UInt32) (ring : UInt32 → α) : Nat → UInt32 → List α × UInt32
  | 0, deqIdx => ([], deqIdx)
  | n + 1, deqIdx =>
      let s := dequeueLoop mask ring n ((deqIdx + 1) &&& mask)
      (ring deqIdx :: s.1, s.2)

/-- `ring_dequeue_multiple`: `none` is the failure, for which it returns -1. -/
def ringDequeueMultiple (r : Ring α) (count : Nat) : Option (List α) × Ring α :=
  if (ringCount r).toNat < count then (none, r)
  else
    let s := dequeueLoop r.mask r.ring count r.deqIdx
    (some s.1, { r with deqIdx := s.2 })

/-! ## Index arithmetic -/

/-- The geometry of a ring: a power of two, and the mask that goes with it. -/
structure RingGeom (r : Ring α) : Prop where
  pow : ∃ k, k < 32 ∧ r.size.toNat = 2 ^ k
  mask : r.mask = r.size - 1

section Index

variable {r : Ring α} {n : UInt32} {q : List α}

theorem RingGeom.size_pos (h : RingGeom r) : 0 < r.size.toNat := by
  obtain ⟨k, -, hk⟩ := h.pow
  rw [hk]
  exact Nat.two_pow_pos k

theorem RingGeom.size_le (h : RingGeom r) : r.size.toNat ≤ 2 ^ 31 := by
  obtain ⟨k, hk, he⟩ := h.pow
  rw [he]
  exact Nat.pow_le_pow_right (by decide) (by omega)

theorem RingGeom.mask_toNat (h : RingGeom r) : r.mask.toNat = r.size.toNat - 1 := by
  rw [h.mask, UInt32.toNat_sub_of_le]
  · rfl
  · rw [UInt32.le_iff_toNat_le]
    exact h.size_pos

/-- Masking is reduction modulo the size. -/
theorem RingGeom.and_mask (h : RingGeom r) (n : UInt32) :
    (n &&& r.mask).toNat = n.toNat % r.size.toNat := by
  obtain ⟨k, -, hk⟩ := h.pow
  rw [UInt32.toNat_and, h.mask_toNat, hk, Nat.and_two_pow_sub_one_eq_mod]

/-- Wrapping at `2 ^ 32` is seen by no size. -/
theorem RingGeom.mod_mod (h : RingGeom r) (n : Nat) :
    n % 2 ^ 32 % r.size.toNat = n % r.size.toNat := by
  obtain ⟨k, hk, he⟩ := h.pow
  rw [he]
  exact Nat.mod_mod_of_dvd n (Nat.pow_dvd_pow 2 (by omega))

theorem RingGeom.succ (h : RingGeom r) (n : UInt32) :
    ((n + 1) &&& r.mask).toNat = (n.toNat + 1) % r.size.toNat := by
  rw [h.and_mask, UInt32.toNat_add, h.mod_mod]
  rfl

/-- A masked difference. -/
theorem RingGeom.sub (h : RingGeom r) {a b : UInt32} (hb : b.toNat < r.size.toNat) :
    ((a - b) &&& r.mask).toNat = (a.toNat + r.size.toNat - b.toNat) % r.size.toNat := by
  obtain ⟨k, hk, he⟩ := h.pow
  obtain ⟨t, ht⟩ : r.size.toNat ∣ 2 ^ 32 := by
    rw [he]
    exact Nat.pow_dvd_pow 2 (by omega)
  have hpos := h.size_pos
  rw [h.and_mask, UInt32.toNat_sub, h.mod_mod]
  -- the borrow is a multiple of the size
  have hsplit : 2 ^ 32 - b.toNat + a.toNat =
      r.size.toNat * (t - 1) + (a.toNat + r.size.toNat - b.toNat) := by
    cases t with
    | zero => omega
    | succ t =>
        rw [Nat.mul_succ] at ht
        rw [Nat.add_sub_cancel]
        omega
  rw [hsplit, Nat.mul_add_mod]

end Index

/-! ## The queue that a ring stands for -/

/-- The slot `i` behind the front. -/
def slotOf (r : Ring α) (i : Nat) : UInt32 := UInt32.ofNat ((r.deqIdx.toNat + i) % r.size.toNat)

/-- The ring holds the elements of `q`, the front at `deq_idx`. -/
structure Holds (r : Ring α) (q : List α) : Prop where
  geom : RingGeom r
  deq : r.deqIdx.toNat < r.size.toNat
  room : q.length < r.size.toNat
  enq : r.enqIdx.toNat = (r.deqIdx.toNat + q.length) % r.size.toNat
  slots : ∀ i (h : i < q.length), r.ring (slotOf r i) = q[i]

section Holds

variable {r : Ring α} {q es : List α} {e : α}

theorem slotOf_toNat (h : Holds r q) (i : Nat) :
    (slotOf r i).toNat = (r.deqIdx.toNat + i) % r.size.toNat := by
  have hlt := Nat.mod_lt (r.deqIdx.toNat + i) h.geom.size_pos
  have hle := h.geom.size_le
  rw [slotOf, UInt32.toNat_ofNat', Nat.mod_eq_of_lt]
  omega

/-- An index modulo the size, written out. -/
theorem Holds.wrap (h : Holds r q) {i : Nat} (hi : i ≤ r.size.toNat) :
    (r.deqIdx.toNat + i) % r.size.toNat =
      if r.deqIdx.toNat + i < r.size.toNat then r.deqIdx.toNat + i
      else r.deqIdx.toNat + i - r.size.toNat := by
  have hd := h.deq
  by_cases hlt : r.deqIdx.toNat + i < r.size.toNat
  · rw [if_pos hlt, Nat.mod_eq_of_lt hlt]
  · rw [if_neg hlt, Nat.mod_eq_sub_mod (by omega), Nat.mod_eq_of_lt (by omega)]

theorem Holds.enq_lt (h : Holds r q) : r.enqIdx.toNat < r.size.toNat := by
  rw [h.enq]
  exact Nat.mod_lt _ h.geom.size_pos

theorem ringCount_eq (h : Holds r q) : (ringCount r).toNat = q.length := by
  have hle := h.geom.size_le
  have henq := h.enq_lt
  have hd := h.deq
  have hr := h.room
  have hadd : (r.size + r.enqIdx).toNat = r.size.toNat + r.enqIdx.toNat := by
    rw [UInt32.toNat_add, Nat.mod_eq_of_lt]
    omega
  rw [ringCount, h.geom.sub hd, hadd, h.enq, h.wrap (Nat.le_of_lt hr)]
  by_cases hlt : r.deqIdx.toNat + q.length < r.size.toNat
  · rw [if_pos hlt, show r.size.toNat + (r.deqIdx.toNat + q.length) + r.size.toNat - r.deqIdx.toNat =
      q.length + r.size.toNat + r.size.toNat from by omega, Nat.add_mod_right, Nat.add_mod_right,
      Nat.mod_eq_of_lt hr]
  · rw [if_neg hlt, show r.size.toNat + (r.deqIdx.toNat + q.length - r.size.toNat) + r.size.toNat -
      r.deqIdx.toNat = q.length + r.size.toNat from by omega, Nat.add_mod_right, Nat.mod_eq_of_lt hr]

theorem ringAvail_eq (h : Holds r q) : (ringAvail r).toNat = r.size.toNat - 1 - q.length := by
  have hle := h.geom.size_le
  have henq := h.enq_lt
  have hd := h.deq
  have hr := h.room
  have hadd : (r.mask + r.deqIdx).toNat = r.size.toNat - 1 + r.deqIdx.toNat := by
    rw [UInt32.toNat_add, h.geom.mask_toNat, Nat.mod_eq_of_lt]
    omega
  rw [ringAvail, h.geom.sub henq, hadd, h.enq, h.wrap (Nat.le_of_lt hr)]
  by_cases hlt : r.deqIdx.toNat + q.length < r.size.toNat
  · rw [if_pos hlt, show r.size.toNat - 1 + r.deqIdx.toNat + r.size.toNat -
      (r.deqIdx.toNat + q.length) = r.size.toNat - 1 - q.length + r.size.toNat from by omega,
      Nat.add_mod_right, Nat.mod_eq_of_lt (by omega)]
  · rw [if_neg hlt, show r.size.toNat - 1 + r.deqIdx.toNat + r.size.toNat -
      (r.deqIdx.toNat + q.length - r.size.toNat) =
        r.size.toNat - 1 - q.length + r.size.toNat + r.size.toNat from by omega,
      Nat.add_mod_right, Nat.add_mod_right, Nat.mod_eq_of_lt (by omega)]

theorem ringFull_iff (h : Holds r q) :
    (r.enqIdx + 1) &&& r.mask = r.deqIdx ↔ q.length = r.size.toNat - 1 := by
  have hd := h.deq
  have hr := h.room
  rw [← UInt32.toNat_inj, h.geom.succ, h.enq, Nat.mod_add_mod, Nat.add_assoc, h.wrap (by omega)]
  by_cases hlt : r.deqIdx.toNat + (q.length + 1) < r.size.toNat
  · rw [if_pos hlt]
    omega
  · rw [if_neg hlt]
    omega

theorem ringEmpty_iff (h : Holds r q) : r.deqIdx = r.enqIdx ↔ q = [] := by
  have hd := h.deq
  have hr := h.room
  rw [← UInt32.toNat_inj, h.enq, h.wrap (Nat.le_of_lt hr), ← List.length_eq_zero_iff]
  by_cases hlt : r.deqIdx.toNat + q.length < r.size.toNat
  · rw [if_pos hlt]
    omega
  · rw [if_neg hlt]
    omega

theorem powerOf2_iff {x : UInt32} : powerOf2 x = true ↔ ∃ k, k < 32 ∧ x.toNat = 2 ^ k := by
  have hand : x ≠ 0 → (x &&& (x - 1)).toNat = x.toNat &&& (x.toNat - 1) := fun h0 => by
    rw [UInt32.toNat_and, UInt32.toNat_sub_of_le]
    · rfl
    · rw [UInt32.le_iff_toNat_le]
      exact Nat.pos_of_ne_zero fun h => h0 (UInt32.toNat_inj.1 h)
  simp only [powerOf2, Bool.and_eq_true, bne_iff_ne, beq_iff_eq]
  constructor
  · rintro ⟨h0, hx⟩
    have hne : x.toNat ≠ 0 := fun h => h0 (UInt32.toNat_inj.1 h)
    rw [← UInt32.toNat_inj, hand h0] at hx
    obtain ⟨k, hk⟩ := (Nat.and_sub_one_eq_zero_iff_isPowerOfTwo hne).1 hx
    refine ⟨k, ?_, hk⟩
    have hlt := x.toNat_lt
    rw [hk] at hlt
    exact (Nat.pow_lt_pow_iff_right (by decide)).1 hlt
  · rintro ⟨k, hk, hx⟩
    have hpos : 0 < x.toNat := by
      rw [hx]
      exact Nat.two_pow_pos k
    have h0 : x ≠ 0 := fun h => by
      rw [h] at hpos
      exact absurd hpos (by decide)
    refine ⟨h0, ?_⟩
    rw [← UInt32.toNat_inj, hand h0]
    exact (Nat.and_sub_one_eq_zero_iff_isPowerOfTwo (Nat.ne_of_gt hpos)).2 ⟨k, hx⟩

/-- A new ring is empty. -/
theorem holds_alloc {size : UInt32} {mem : Option (UInt32 → α)}
    (ha : allocRing size mem = .ok (some r)) : Holds r [] ∧ r.size = size := by
  unfold allocRing at ha
  split at ha
  · cases ha
  · rename_i hsize
    obtain ⟨hpos, hpow⟩ := not_not.1 hsize
    cases mem with
    | none => cases ha
    | some ring =>
        obtain rfl := Option.some.inj (Except.ok.inj ha)
        have hne : size.toNat ≠ 0 := Nat.ne_of_gt (UInt32.lt_iff_toNat_lt.1 hpos)
        obtain ⟨k, hlt, hk⟩ := powerOf2_iff.1 hpow
        have hzero : (0 : UInt32).toNat = 0 := rfl
        refine ⟨⟨⟨⟨k, hlt, hk⟩, rfl⟩, ?_, ?_, ?_, ?_⟩, rfl⟩
        · exact Nat.pos_of_ne_zero hne
        · exact Nat.pos_of_ne_zero hne
        · show (0 : UInt32).toNat = ((0 : UInt32).toNat + 0) % size.toNat
          rw [hzero, Nat.zero_mod]
        · intro i hi
          exact absurd hi (Nat.not_lt_zero i)

/-- One element more at the back. -/
theorem Holds.push (h : Holds r q) (hroom : q.length + 1 < r.size.toNat) :
    Holds { r with ring := Function.update r.ring r.enqIdx e, enqIdx := (r.enqIdx + 1) &&& r.mask }
      (q ++ [e]) := by
  have hd := h.deq
  refine ⟨⟨h.geom.pow, h.geom.mask⟩, hd, ?_, ?_, ?_⟩
  · simpa using hroom
  · show ((r.enqIdx + 1) &&& r.mask).toNat = _
    rw [h.geom.succ, h.enq, Nat.mod_add_mod, List.length_append]
    rfl
  · intro i hi
    show Function.update r.ring r.enqIdx e (slotOf r i) = _
    have hi' : i ≤ q.length := by simpa [Nat.lt_succ_iff] using hi
    by_cases hlast : i = q.length
    · have hslot : slotOf r i = r.enqIdx := by
        rw [← UInt32.toNat_inj, slotOf_toNat h, h.enq, hlast]
      rw [hslot, Function.update_self]
      simp [hlast]
    · have hlt : i < q.length := by omega
      have hslot : slotOf r i ≠ r.enqIdx := by
        intro he
        have := congrArg UInt32.toNat he
        rw [slotOf_toNat h, h.enq, h.wrap (by omega), h.wrap (by omega)] at this
        split at this <;> split at this <;> omega
      rw [Function.update_of_ne hslot, h.slots i hlt, List.getElem_append_left hlt]

/-- The front element goes. -/
theorem Holds.pop (h : Holds r (e :: q)) : r.ring r.deqIdx = e ∧
    Holds { r with deqIdx := (r.deqIdx + 1) &&& r.mask } q := by
  have hd := h.deq
  have hr : q.length + 1 < r.size.toNat := h.room
  have hnext : ((r.deqIdx + 1) &&& r.mask).toNat = (r.deqIdx.toNat + 1) % r.size.toNat :=
    h.geom.succ _
  refine ⟨?_, ⟨h.geom.pow, h.geom.mask⟩, ?_, ?_, ?_, ?_⟩
  · have hslot : slotOf r 0 = r.deqIdx := by
      rw [← UInt32.toNat_inj, slotOf_toNat h, Nat.add_zero, Nat.mod_eq_of_lt hd]
    have := h.slots 0 (by simp)
    rwa [hslot] at this
  · show ((r.deqIdx + 1) &&& r.mask).toNat < r.size.toNat
    rw [hnext]
    exact Nat.mod_lt _ h.geom.size_pos
  · show q.length < r.size.toNat
    omega
  · show r.enqIdx.toNat = (((r.deqIdx + 1) &&& r.mask).toNat + q.length) % r.size.toNat
    rw [hnext, h.enq, Nat.mod_add_mod, List.length_cons]
    congr 1
    omega
  · intro i hi
    have hslot : slotOf { r with deqIdx := (r.deqIdx + 1) &&& r.mask } i = slotOf r (i + 1) := by
      show UInt32.ofNat ((((r.deqIdx + 1) &&& r.mask).toNat + i) % r.size.toNat) =
        UInt32.ofNat ((r.deqIdx.toNat + (i + 1)) % r.size.toNat)
      rw [hnext, Nat.mod_add_mod]
      congr 2
      omega
    show r.ring (slotOf { r with deqIdx := (r.deqIdx + 1) &&& r.mask } i) = q[i]
    rw [hslot, h.slots (i + 1) (by simpa using hi)]
    rfl

/-- The bulk loop puts the elements in one after another. -/
theorem Holds.enqueueLoop (h : Holds r q) (hroom : q.length + es.length < r.size.toNat) :
    Holds { r with
      ring := (enqueueLoop r.mask es r.ring r.enqIdx).1
      enqIdx := (enqueueLoop r.mask es r.ring r.enqIdx).2 } (q ++ es) := by
  induction es generalizing r q with
  | nil =>
      rw [List.append_nil]
      exact h
  | cons e es ih =>
      rw [List.length_cons] at hroom
      have hpush := h.push (e := e) (by omega)
      have := ih hpush (by
        rw [List.length_append]
        show q.length + 1 + es.length < r.size.toNat
        omega)
      rw [List.append_assoc] at this
      exact this

/-- The bulk loop takes the elements out one after another. -/
theorem Holds.dequeueLoop (h : Holds r q) {n : Nat} (hn : n ≤ q.length) :
    (dequeueLoop r.mask r.ring n r.deqIdx).1 = q.take n ∧
      Holds { r with deqIdx := (dequeueLoop r.mask r.ring n r.deqIdx).2 } (q.drop n) := by
  induction n generalizing r q with
  | zero => exact ⟨rfl, h⟩
  | succ n ih =>
      cases q with
      | nil => exact absurd hn (Nat.not_succ_le_zero n)
      | cons e q =>
          obtain ⟨hfront, hpop⟩ := h.pop
          obtain ⟨hout, hrest⟩ := ih hpop (by simpa using hn)
          refine ⟨?_, hrest⟩
          show r.ring r.deqIdx :: _ = _
          rw [hfront, List.take_succ_cons]
          congr 1

end Holds

/-! ## Refinement -/

/-- A call of one of the four operations. -/
inductive RingOp (α : Type u) where
  | enqueue (element : α)
  | enqueueMultiple (elements : List α)
  | dequeue
  | dequeueMultiple (count : Nat)

/-- A negative value is a failure; an enqueue hands out nothing. -/
def outcome (ret : Int) : Option (List α) := if ret < 0 then none else some []

/-- The result of a call, `none` if it failed, and the ring after it. -/
def ringStep (r : Ring α) : RingOp α → Option (List α) × Ring α
  | .enqueue e => (outcome (ringEnqueue r e).1, (ringEnqueue r e).2)
  | .enqueueMultiple es => (outcome (ringEnqueueMultiple r es).1, (ringEnqueueMultiple r es).2)
  | .dequeue => ((ringDequeue r).1.map fun e => [e], (ringDequeue r).2)
  | .dequeueMultiple n => ringDequeueMultiple r n

/-- A list of calls. -/
def ringRun : Ring α → List (RingOp α) → List (Option (List α)) × Ring α
  | r, [] => ([], r)
  | r, op :: ops =>
      let (out, r) := ringStep r op
      let (outs, r) := ringRun r ops
      (out :: outs, r)

/-- The request to a queue that a call is. -/
def RingOp.toFifo : RingOp α → Fifo.Op α
  | .enqueue e => .put [e]
  | .enqueueMultiple es => .put es
  | .dequeue => .take 1
  | .dequeueMultiple n => .take n

section Refine

variable {r : Ring α} {q : List α}

theorem ringEnqueue_spec (h : Holds r q) (e : α) :
    if q.length + 1 ≤ r.size.toNat - 1 then
      ∃ r', ringEnqueue r e = (0, r') ∧ Holds r' (q ++ [e]) ∧ r'.size = r.size
    else ringEnqueue r e = (-1, r) := by
  have hr := h.room
  unfold ringEnqueue
  by_cases hfull : (r.enqIdx + 1) &&& r.mask = r.deqIdx
  · have hlen := (ringFull_iff h).1 hfull
    rw [if_pos hfull, if_neg (by omega)]
  · have hlen : q.length ≠ r.size.toNat - 1 := fun he => hfull ((ringFull_iff h).2 he)
    rw [if_neg hfull, if_pos (by omega)]
    exact ⟨_, rfl, h.push (by omega), rfl⟩

theorem ringEnqueueMultiple_spec (h : Holds r q) (es : List α) :
    if q.length + es.length ≤ r.size.toNat - 1 then
      ∃ r', ringEnqueueMultiple r es = (0, r') ∧ Holds r' (q ++ es) ∧ r'.size = r.size
    else ringEnqueueMultiple r es = (-1, r) := by
  have hr := h.room
  have hfree : ((r.size - 1) - ringCount r).toNat = r.size.toNat - 1 - q.length := by
    have hm := h.geom.mask_toNat
    rw [h.geom.mask] at hm
    rw [UInt32.toNat_sub_of_le, hm, ringCount_eq h]
    rw [UInt32.le_iff_toNat_le, hm, ringCount_eq h]
    omega
  unfold ringEnqueueMultiple
  rw [hfree]
  by_cases hlt : r.size.toNat - 1 - q.length < es.length
  · rw [if_pos hlt, if_neg (by omega)]
  · rw [if_neg hlt, if_pos (by omega)]
    exact ⟨_, rfl, h.enqueueLoop (by omega), rfl⟩

theorem ringDequeue_spec (h : Holds r q) :
    match q with
    | [] => ringDequeue r = (none, r)
    | e :: q => ∃ r', ringDequeue r = (some e, r') ∧ Holds r' q ∧ r'.size = r.size := by
  unfold ringDequeue
  cases q with
  | nil => rw [if_pos ((ringEmpty_iff h).2 rfl)]
  | cons e q =>
      have hne : r.deqIdx ≠ r.enqIdx := fun he => by
        have := (ringEmpty_iff h).1 he
        cases this
      obtain ⟨hfront, hpop⟩ := h.pop
      rw [if_neg hne, hfront]
      exact ⟨_, rfl, hpop, rfl⟩

theorem ringDequeueMultiple_spec (h : Holds r q) (n : Nat) :
    if n ≤ q.length then
      ∃ r', ringDequeueMultiple r n = (some (q.take n), r') ∧ Holds r' (q.drop n) ∧ r'.size = r.size
    else ringDequeueMultiple r n = (none, r) := by
  unfold ringDequeueMultiple
  rw [ringCount_eq h]
  by_cases hlt : q.length < n
  · rw [if_pos hlt, if_neg (by omega)]
  · obtain ⟨hout, hrest⟩ := h.dequeueLoop (n := n) (by omega)
    rw [if_neg hlt, if_pos (by omega), ← hout]
    exact ⟨_, rfl, hrest, rfl⟩

/-- A call does to the ring what the request does to the queue, and if it fails the ring is as before. -/
theorem ringStep_refines (h : Holds r q) (op : RingOp α) :
    (ringStep r op).1 = (Fifo.step (r.size.toNat - 1) q op.toFifo).1 ∧
      Holds (ringStep r op).2 (Fifo.step (r.size.toNat - 1) q op.toFifo).2 ∧
      (ringStep r op).2.size = r.size ∧ ((ringStep r op).1 = none → (ringStep r op).2 = r) := by
  have hok : (outcome 0 : Option (List α)) = some [] := rfl
  have hfail : (outcome (-1) : Option (List α)) = none := rfl
  cases op with
  | enqueue e =>
      have hspec := ringEnqueue_spec h e
      rw [ringStep, RingOp.toFifo, Fifo.step_put, List.length_singleton]
      split at hspec
      · obtain ⟨r', he, hh, hs⟩ := hspec
        rw [he, if_pos (by assumption), hok]
        exact ⟨rfl, hh, hs, fun hn => by cases hn⟩
      · rw [hspec, if_neg (by assumption), hfail]
        exact ⟨rfl, h, rfl, fun _ => rfl⟩
  | enqueueMultiple es =>
      have hspec := ringEnqueueMultiple_spec h es
      rw [ringStep, RingOp.toFifo, Fifo.step_put]
      split at hspec
      · obtain ⟨r', he, hh, hs⟩ := hspec
        rw [he, if_pos (by assumption), hok]
        exact ⟨rfl, hh, hs, fun hn => by cases hn⟩
      · rw [hspec, if_neg (by assumption), hfail]
        exact ⟨rfl, h, rfl, fun _ => rfl⟩
  | dequeue =>
      have hspec := ringDequeue_spec h
      rw [ringStep, RingOp.toFifo, Fifo.step_take]
      cases q with
      | nil =>
          rw [hspec, if_neg (by simp)]
          exact ⟨rfl, h, rfl, fun _ => rfl⟩
      | cons e q =>
          obtain ⟨r', he, hh, hs⟩ := hspec
          rw [he, if_pos (by simp)]
          exact ⟨rfl, hh, hs, fun hn => by cases hn⟩
  | dequeueMultiple n =>
      have hspec := ringDequeueMultiple_spec h n
      rw [ringStep, RingOp.toFifo, Fifo.step_take]
      split at hspec
      · obtain ⟨r', he, hh, hs⟩ := hspec
        rw [he, if_pos (by assumption)]
        exact ⟨rfl, hh, hs, fun hn => by cases hn⟩
      · rw [hspec, if_neg (by assumption)]
        exact ⟨rfl, h, rfl, fun _ => rfl⟩

theorem ringRun_refines (h : Holds r q) (ops : List (RingOp α)) :
    (ringRun r ops).1 = (Fifo.run (r.size.toNat - 1) q (ops.map RingOp.toFifo)).1 ∧
      Holds (ringRun r ops).2 (Fifo.run (r.size.toNat - 1) q (ops.map RingOp.toFifo)).2 ∧
      (ringRun r ops).2.size = r.size := by
  induction ops generalizing r q with
  | nil => exact ⟨rfl, h, rfl⟩
  | cons op ops ih =>
      obtain ⟨hout, hnext, hsize, -⟩ := ringStep_refines h op
      obtain ⟨houts, hend, hsize'⟩ := ih hnext
      rw [hsize] at houts hend
      refine ⟨?_, hend, hsize'.trans hsize⟩
      show (ringStep r op).1 :: (ringRun (ringStep r op).2 ops).1 = _
      rw [hout, houts]
      rfl

/-- What the macros report of a ring that stands for a queue. -/
structure Reports (r : Ring α) (q : List α) : Prop where
  count : (ringCount r).toNat = q.length
  avail : (ringAvail r).toNat = r.size.toNat - 1 - q.length
  full : ringFull r = true ↔ q.length = r.size.toNat - 1
  empty : ringEmpty r = true ↔ q.length = 0

theorem Holds.reports (h : Holds r q) : Reports r q := by
  refine ⟨ringCount_eq h, ringAvail_eq h, ?_, ?_⟩
  · rw [ringFull, beq_iff_eq, ringFull_iff h]
  · rw [ringEmpty, beq_iff_eq, eq_comm, ringEmpty_iff h, List.length_eq_zero_iff]

/-- Which calls fail on a ring that stands for a queue, and that they change nothing. -/
structure FailsLike (r : Ring α) (q : List α) : Prop where
  enqueue : ∀ e, (ringEnqueue r e).1 = -1 ↔ r.size.toNat - 1 - q.length < 1
  enqueueMultiple : ∀ es, (ringEnqueueMultiple r es).1 = -1 ↔ r.size.toNat - 1 - q.length < es.length
  dequeue : (ringDequeue r).1 = none ↔ q.length < 1
  dequeueMultiple : ∀ n, (ringDequeueMultiple r n).1 = none ↔ q.length < n
  unchanged : ∀ op, (ringStep r op).1 = none → (ringStep r op).2 = r

theorem Holds.failsLike (h : Holds r q) : FailsLike r q := by
  have hroom := h.room
  refine ⟨fun e => ?_, fun es => ?_, ?_, fun n => ?_, fun op => (ringStep_refines h op).2.2.2⟩
  · have hspec := ringEnqueue_spec h e
    split at hspec
    · obtain ⟨u, hu, -⟩ := hspec
      rw [hu]
      simp only
      omega
    · rw [hspec]
      simp only [true_iff]
      omega
  · have hspec := ringEnqueueMultiple_spec h es
    split at hspec
    · obtain ⟨u, hu, -⟩ := hspec
      rw [hu]
      simp only
      omega
    · rw [hspec]
      simp only [true_iff]
      omega
  · have hspec := ringDequeue_spec h
    cases q with
    | nil => simp [hspec]
    | cons e q =>
        obtain ⟨u, hu, -⟩ := hspec
        simp [hu]
  · have hspec := ringDequeueMultiple_spec h n
    split at hspec
    · obtain ⟨u, hu, -⟩ := hspec
      rw [hu]
      simp only [reduceCtorEq, false_iff]
      omega
    · rw [hspec]
      simp only [true_iff]
      omega

/-- A ring is a bounded queue, from `alloc_ring` on and over any calls: the same calls fail, the same
elements come out, in the order in which they went in, and the macros report the queue. One call more
fails exactly if the queue has no room or too few elements, and then changes nothing. -/
theorem ring_refines_fifo {size : UInt32} {mem : Option (UInt32 → α)}
    (ha : allocRing size mem = .ok (some r)) (ops : List (RingOp α)) :
    let (outs, r') := ringRun r ops
    let (outs', q') := Fifo.run (size.toNat - 1) [] (ops.map RingOp.toFifo)
    outs = outs' ∧ Fifo.inserted (ops.map RingOp.toFifo) outs = Fifo.removed outs ++ q' ∧
      r'.size = size ∧ Reports r' q' ∧ FailsLike r' q' := by
  obtain ⟨hinit, hsize⟩ := holds_alloc ha
  obtain ⟨houts, hh, hs⟩ := ringRun_refines hinit ops
  rw [hsize] at houts hh hs
  have hcons := Fifo.run_conservation (size.toNat - 1) [] (ops.map RingOp.toFifo)
  rw [← houts] at hcons
  exact ⟨houts, hcons, hs, hh.reports, hh.failsLike⟩

end Refine

/-- Two slots of four in use, over the end of the array. -/
theorem ring_refines_fifo_four : ∃ r : Ring Nat, allocRing 4 (some fun _ => 0) = .ok (some r) ∧
    (ringRun r [.enqueueMultiple [1, 2, 3], .enqueue 4, .dequeueMultiple 2, .enqueue 5, .dequeue]).1 =
      [some [], none, some [1, 2], some [], some [3]] ∧
    Reports (ringRun r [.enqueueMultiple [1, 2, 3], .enqueue 4, .dequeueMultiple 2, .enqueue 5,
      .dequeue]).2 [5] := by
  have ha : allocRing 4 (some fun _ => 0) = .ok (some (⟨0, 0, 4, 4 - 1, fun _ => 0⟩ : Ring Nat)) := rfl
  refine ⟨_, ha, by decide, ?_⟩
  exact (ring_refines_fifo ha
    [.enqueueMultiple [1, 2, 3], .enqueue 4, .dequeueMultiple 2, .enqueue 5, .dequeue]).2.2.2.1

end Minipython.Minios
