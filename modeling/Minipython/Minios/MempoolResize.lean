/-
# Minipython.Minios.MempoolResize — growing and shrinking an object (mempool.h)

`mempool_obj_prepend` and `mempool_obj_append` take a signed length and compare it with the unsigned room on
that side of the data. The comparison is unsigned, so a negative length is larger than every room that an
object can have: the branch for negative lengths behind it never gets its turn.

So a call with a negative length fails and changes nothing. `NoShrink` is the condition on a sequence of
calls that keeps away from this branch: a length is not negative, or takes away more than there is, where
failing is right. `resizeOk_iff` says for any object that its sequences of calls work exactly then.

The object is `Picked`: one that a pool hands out after any run of picks, puts and calls by its users
(`whole_picked`). Its rooms and its length add up to the same number before and after each call.
-/
import Minipython.Lib.Word
import Minipython.Minios.MempoolLayout

namespace Minipython.Minios

open Minipython.Lib

/-! ## The functions -/

/-- `mempool_obj_prepend_nocheck`. -/
def mempoolObjPrependNocheck (obj : MempoolObj) (len : Int64) : MempoolObj :=
  { obj with
    lhr := obj.lhr - len.toUInt64, len := obj.len + len.toUInt64, data := obj.data - len.toUInt64 }

/-- `mempool_obj_append_nocheck`. -/
def mempoolObjAppendNocheck (obj : MempoolObj) (len : Int64) : MempoolObj :=
  { obj with ltr := obj.ltr - len.toUInt64, len := obj.len + len.toUInt64 }

/-- The test that both functions make before they resize. `size_t` is as wide as `ssize_t`, so both sides
of each comparison are unsigned. -/
def noSpace (obj : MempoolObj) (room : UInt64) (len : Int64) : Prop :=
  len.toUInt64 > room ∨ (len < 0 ∧ (-len).toUInt64 > obj.len)

instance (obj : MempoolObj) (room : UInt64) (len : Int64) : Decidable (noSpace obj room len) :=
  inferInstanceAs (Decidable (_ ∨ _))

/-- `mempool_obj_prepend`. -/
def mempoolObjPrepend (obj : MempoolObj) (len : Int64) : Int × MempoolObj :=
  if noSpace obj obj.lhr len then (-1, obj) else (0, mempoolObjPrependNocheck obj len)

/-- `mempool_obj_append`. -/
def mempoolObjAppend (obj : MempoolObj) (len : Int64) : Int × MempoolObj :=
  if noSpace obj obj.ltr len then (-1, obj) else (0, mempoolObjAppendNocheck obj len)

/-! ## Sequences of calls -/

/-- A call of one of the two. -/
inductive ResizeCall where
  | prepend (len : Int64)
  | append (len : Int64)
  deriving DecidableEq, Repr

namespace ResizeCall

def len : ResizeCall → Int64
  | .prepend n => n
  | .append n => n

/-- The room that a call takes its space from. -/
def room : ResizeCall → MempoolObj → UInt64
  | .prepend _, obj => obj.lhr
  | .append _, obj => obj.ltr

def exec : ResizeCall → MempoolObj → Int × MempoolObj
  | .prepend n, obj => mempoolObjPrepend obj n
  | .append n, obj => mempoolObjAppend obj n

/-- The second call takes back what the first has done. -/
def Undoes : ResizeCall → ResizeCall → Prop
  | .prepend m, .prepend n => m.toInt = -n.toInt
  | .append m, .append n => m.toInt = -n.toInt
  | _, _ => False

end ResizeCall

/-- An object after a sequence of calls. -/
def resizeRun (obj : MempoolObj) (cs : List ResizeCall) : MempoolObj :=
  cs.foldl (fun x c => (c.exec x).2) obj

/-! ## What resizing should do -/

/-- The calls that an object has space for. -/
def HasSpace (c : ResizeCall) (obj : MempoolObj) : Prop :=
  (0 ≤ c.len.toInt ∧ c.len.toInt ≤ ((c.room obj).toNat : Int)) ∨
    (c.len.toInt < 0 ∧ -c.len.toInt ≤ (obj.len.toNat : Int))

/-- The rooms and the data of an object are `total` bytes, the data behind the headroom. As the numbers add
up, none of the fields has left its range. -/
structure Whole (start : UInt64) (total : Nat) (obj : MempoolObj) : Prop where
  base : obj.base = start
  total : obj.lhr.toNat + obj.len.toNat + obj.ltr.toNat = total
  data : obj.data.toNat = start.toNat + obj.lhr.toNat

/-- A call succeeds exactly if there is space, and changes nothing if it fails. -/
def CallOk (c : ResizeCall) (obj : MempoolObj) : Prop :=
  ((c.exec obj).1 = 0 ↔ HasSpace c obj) ∧ ((c.exec obj).1 ≠ 0 → (c.exec obj).2 = obj)

/-- Resizing works along a sequence of calls. -/
structure ResizeOk (obj : MempoolObj) (cs : List ResizeCall) : Prop where
  whole : ∀ pre, pre <+: cs →
    Whole obj.base (obj.lhr.toNat + obj.len.toNat + obj.ltr.toNat) (resizeRun obj pre)
  call : ∀ pre c, pre ++ [c] <+: cs → CallOk c (resizeRun obj pre)
  undo : ∀ pre c c', pre ++ [c, c'] <+: cs → c.Undoes c' → (c.exec (resizeRun obj pre)).1 = 0 →
    c'.exec (c.exec (resizeRun obj pre)).2 = (0, resizeRun obj pre)

/-- No call of a sequence takes back data that is there. -/
def NoShrink (obj : MempoolObj) (cs : List ResizeCall) : Prop :=
  ∀ pre c, pre ++ [c] <+: cs → 0 ≤ c.len.toInt ∨ ((resizeRun obj pre).len.toNat : Int) < -c.len.toInt

theorem noShrink_cons {obj : MempoolObj} {c : ResizeCall} {cs : List ResizeCall} :
    NoShrink obj (c :: cs) ↔
      (0 ≤ c.len.toInt ∨ (obj.len.toNat : Int) < -c.len.toInt) ∧ NoShrink (c.exec obj).2 cs := by
  constructor
  · intro h
    refine ⟨h [] c ⟨cs, rfl⟩, fun pre d hpre => ?_⟩
    exact h (c :: pre) d (List.prefix_cons_iff.2 (Or.inr ⟨_, rfl, hpre⟩))
  · rintro ⟨hc, hcs⟩ pre d hpre
    cases pre with
    | nil =>
        obtain ⟨t, ht⟩ := hpre
        obtain ⟨rfl, -⟩ := List.cons.inj ht
        exact hc
    | cons e pre =>
        obtain ⟨t, ht⟩ := hpre
        obtain ⟨rfl, hrest⟩ := List.cons.inj ht
        exact hcs pre d ⟨t, hrest⟩

/-- Whether calls shrink the data can be found out by running them. -/
instance decidableNoShrink : (obj : MempoolObj) → (cs : List ResizeCall) → Decidable (NoShrink obj cs)
  | _, [] => isTrue fun pre c h => by simp at h
  | obj, c :: cs =>
      have := decidableNoShrink (c.exec obj).2 cs
      decidable_of_iff _ noShrink_cons.symm

/-! ## One call -/

section Call

variable {start : UInt64} {total : Nat} {obj : MempoolObj} {c c' : ResizeCall}

theorem exec_noSpace (h : noSpace obj (c.room obj) c.len) : c.exec obj = (-1, obj) := by
  cases c with
  | prepend n => exact if_pos h
  | append n => exact if_pos h

theorem room_le (h : Whole start total obj) (c : ResizeCall) :
    (c.room obj).toNat + obj.len.toNat ≤ total := by
  have htotal := h.total
  cases c with
  | prepend n =>
      show obj.lhr.toNat + _ ≤ _
      omega
  | append n =>
      show obj.ltr.toNat + _ ≤ _
      omega

/-- A negative length never passes: it is converted to a number above the room, or is above the length. -/
theorem exec_neg (h : Whole start total obj) (hfits : start.toNat + total < 2 ^ 64)
    (hneg : c.len.toInt < 0) : c.exec obj = (-1, obj) := by
  have hroom := room_le h c
  have hconv := Word.toNat_toUInt64_of_neg hneg
  have habs := Word.toNat_neg_toUInt64 hneg
  refine exec_noSpace ?_
  by_cases hlt : (c.room obj).toNat < c.len.toUInt64.toNat
  · exact Or.inl (UInt64.lt_iff_toNat_lt.2 hlt)
  · refine Or.inr ⟨Int64.lt_iff_toInt_lt.2 hneg, UInt64.lt_iff_toNat_lt.2 ?_⟩
    omega

/-- A length that is not negative passes exactly up to the room. -/
theorem noSpace_nonneg (hnn : 0 ≤ c.len.toInt) :
    noSpace obj (c.room obj) c.len ↔ ((c.room obj).toNat : Int) < c.len.toInt := by
  have hconv := Word.toNat_toUInt64_of_nonneg hnn
  have hlt : ¬c.len < 0 := fun h => absurd (Int64.lt_iff_toInt_lt.1 h) (Int.not_lt.2 hnn)
  constructor
  · rintro (h | ⟨h, -⟩)
    · have h := UInt64.lt_iff_toNat_lt.1 h
      omega
    · exact absurd h hlt
  · intro h
    refine Or.inl (UInt64.lt_iff_toNat_lt.2 ?_)
    omega

/-- What a call does that has the room for it. -/
theorem exec_fits (hnn : 0 ≤ c.len.toInt) (hle : c.len.toInt ≤ (c.room obj).toNat) :
    c.exec obj = (0, match c with
      | .prepend n => mempoolObjPrependNocheck obj n
      | .append n => mempoolObjAppendNocheck obj n) := by
  have hspace : ¬noSpace obj (c.room obj) c.len := mt (noSpace_nonneg hnn).1 (Int.not_lt.2 hle)
  cases c with
  | prepend n => exact if_neg hspace
  | append n => exact if_neg hspace

/-- A call that fits moves space between the room and the data. -/
theorem whole_fits (h : Whole start total obj) (hfits : start.toNat + total < 2 ^ 64)
    (hnn : 0 ≤ c.len.toInt) (hle : c.len.toInt ≤ (c.room obj).toNat) :
    Whole start total (c.exec obj).2 ∧
      ((c.exec obj).2.len.toNat : Int) = obj.len.toNat + c.len.toInt := by
  have htotal := h.total
  have hdata := h.data
  have hconv := Word.toNat_toUInt64_of_nonneg hnn
  have hroom := room_le h c
  rw [exec_fits hnn hle]
  have hlen : (obj.len + c.len.toUInt64).toNat = obj.len.toNat + c.len.toUInt64.toNat :=
    Word.toNat_add (by omega)
  cases c with
  | prepend n =>
      have hn : n.toUInt64.toNat ≤ obj.lhr.toNat := by
        have hle : n.toInt ≤ obj.lhr.toNat := hle
        have hconv : (n.toUInt64.toNat : Int) = n.toInt := hconv
        omega
      have hlhr : (obj.lhr - n.toUInt64).toNat = obj.lhr.toNat - n.toUInt64.toNat := Word.toNat_sub hn
      have hdat : (obj.data - n.toUInt64).toNat = obj.data.toNat - n.toUInt64.toNat :=
        Word.toNat_sub (by omega)
      have hlen : (obj.len + n.toUInt64).toNat = obj.len.toNat + n.toUInt64.toNat := hlen
      refine ⟨⟨h.base, ?_, ?_⟩, ?_⟩
      · show (obj.lhr - n.toUInt64).toNat + (obj.len + n.toUInt64).toNat + obj.ltr.toNat = total
        omega
      · show (obj.data - n.toUInt64).toNat = start.toNat + (obj.lhr - n.toUInt64).toNat
        omega
      · show ((obj.len + n.toUInt64).toNat : Int) = _
        rw [hlen, ← hconv]
        rfl
  | append n =>
      have hn : n.toUInt64.toNat ≤ obj.ltr.toNat := by
        have hle : n.toInt ≤ obj.ltr.toNat := hle
        have hconv : (n.toUInt64.toNat : Int) = n.toInt := hconv
        omega
      have hltr : (obj.ltr - n.toUInt64).toNat = obj.ltr.toNat - n.toUInt64.toNat := Word.toNat_sub hn
      have hlen : (obj.len + n.toUInt64).toNat = obj.len.toNat + n.toUInt64.toNat := hlen
      refine ⟨⟨h.base, ?_, hdata⟩, ?_⟩
      · show obj.lhr.toNat + (obj.len + n.toUInt64).toNat + (obj.ltr - n.toUInt64).toNat = total
        omega
      · show ((obj.len + n.toUInt64).toNat : Int) = _
        rw [hlen, ← hconv]
        rfl

/-- Every call keeps an object whole. -/
theorem whole_exec (h : Whole start total obj) (hfits : start.toNat + total < 2 ^ 64) (c : ResizeCall) :
    Whole start total (c.exec obj).2 := by
  by_cases hnn : 0 ≤ c.len.toInt
  · by_cases hle : c.len.toInt ≤ (c.room obj).toNat
    · exact (whole_fits h hfits hnn hle).1
    · rwa [exec_noSpace ((noSpace_nonneg hnn).2 (Int.not_le.1 hle))]
  · rwa [exec_neg h hfits (Int.not_le.1 hnn)]

/-- A call does what it should unless it takes back data that is there. -/
theorem callOk_iff (h : Whole start total obj) (hfits : start.toNat + total < 2 ^ 64) (c : ResizeCall) :
    CallOk c obj ↔ 0 ≤ c.len.toInt ∨ (obj.len.toNat : Int) < -c.len.toInt := by
  have hfail : ((-1 : Int), obj).1 ≠ 0 := Int.neg_ne_zero.2 Int.one_ne_zero
  unfold CallOk HasSpace
  by_cases hnn : 0 ≤ c.len.toInt
  · refine iff_of_true ?_ (Or.inl hnn)
    by_cases hle : c.len.toInt ≤ (c.room obj).toNat
    · rw [exec_fits hnn hle]
      exact ⟨iff_of_true rfl (Or.inl ⟨hnn, hle⟩), fun hne => absurd rfl hne⟩
    · rw [exec_noSpace ((noSpace_nonneg hnn).2 (Int.not_le.1 hle))]
      refine ⟨iff_of_false hfail ?_, fun _ => rfl⟩
      rintro (⟨-, hle'⟩ | ⟨hneg, -⟩)
      · exact hle hle'
      · omega
  · have hneg := Int.not_le.1 hnn
    rw [exec_neg h hfits hneg]
    constructor
    · rintro ⟨hiff, -⟩
      by_contra hcon
      rw [not_or] at hcon
      exact hfail (hiff.2 (Or.inr ⟨hneg, Int.not_lt.1 hcon.2⟩))
    · rintro (h0 | hlt)
      · exact absurd h0 hnn
      · refine ⟨iff_of_false hfail ?_, fun _ => rfl⟩
        rintro (⟨h0, -⟩ | ⟨-, hle⟩)
        · exact hnn h0
        · omega

/-- Growing by nothing. -/
theorem exec_zero (h0 : c.len.toInt = 0) : c.exec obj = (0, obj) := by
  have hzero : c.len.toUInt64 = 0 := by
    have hconv := Word.toNat_toUInt64_of_nonneg (z := c.len) (by omega)
    rw [← UInt64.toNat_inj]
    show c.len.toUInt64.toNat = 0
    omega
  rw [exec_fits (by omega) (by omega)]
  cases c with
  | prepend n =>
      have hzero : n.toUInt64 = 0 := hzero
      simp [mempoolObjPrependNocheck, hzero]
  | append n =>
      have hzero : n.toUInt64 = 0 := hzero
      simp [mempoolObjAppendNocheck, hzero]

theorem undoes_len (h : c.Undoes c') : c.len.toInt = -c'.len.toInt := by
  cases c <;> cases c' <;> first | exact h | exact h.elim

end Call

/-! ## Sequences -/

section Runs

variable {start : UInt64} {total : Nat} {obj : MempoolObj} {cs : List ResizeCall}

theorem resizeRun_snoc (obj : MempoolObj) (cs : List ResizeCall) (c : ResizeCall) :
    resizeRun obj (cs ++ [c]) = (c.exec (resizeRun obj cs)).2 := by
  rw [resizeRun, List.foldl_append]
  rfl

/-- An object stays whole under every sequence of calls. -/
theorem whole_run (h : Whole start total obj) (hfits : start.toNat + total < 2 ^ 64)
    (cs : List ResizeCall) : Whole start total (resizeRun obj cs) := by
  induction cs generalizing obj with
  | nil => exact h
  | cons c cs ih => exact ih (whole_exec h hfits c)

/-- Resizing works along a sequence exactly if no call of it shrinks the data. -/
theorem resizeOk_iff (h : Whole start total obj) (hfits : start.toNat + total < 2 ^ 64)
    (cs : List ResizeCall) : ResizeOk obj cs ↔ NoShrink obj cs := by
  constructor
  · intro hok pre c hpre
    exact (callOk_iff (whole_run h hfits pre) hfits c).1 (hok.call pre c hpre)
  intro hns
  refine ⟨fun pre _ => ?_, fun pre c hpre => ?_, fun pre c c' hpre hundo hzero => ?_⟩
  · rw [h.base, h.total]
    exact whole_run h hfits pre
  · exact (callOk_iff (whole_run h hfits pre) hfits c).2 (hns pre c hpre)
  · -- what was taken could be given back only by a call that shrinks
    have hw := whole_run h hfits pre
    have hpair : pre ++ [c, c'] = (pre ++ [c]) ++ [c'] := by rw [List.append_assoc]; rfl
    have hlen := undoes_len hundo
    rw [hpair] at hpre
    have hsecond := hns (pre ++ [c]) c' hpre
    rw [resizeRun_snoc] at hsecond
    have hnn : 0 ≤ c.len.toInt := by
      by_contra hneg
      rw [exec_neg hw hfits (Int.not_le.1 hneg)] at hzero
      exact absurd hzero (Int.neg_ne_zero.2 Int.one_ne_zero)
    have hle : c.len.toInt ≤ (c.room (resizeRun obj pre)).toNat := by
      by_contra hgt
      rw [exec_noSpace ((noSpace_nonneg hnn).2 (Int.not_le.1 hgt))] at hzero
      exact absurd hzero (Int.neg_ne_zero.2 Int.one_ne_zero)
    have hgrown := (whole_fits hw hfits hnn hle).2
    have h0 : c.len.toInt = 0 := by omega
    rw [exec_zero h0, exec_zero (by omega)]

end Runs

/-! ## Picked objects -/

section Picked

variable {p : Mempool} {s s' : Pool} {n : Nat}

theorem SamePool.refl (p : Mempool) : SamePool p p := ⟨rfl, rfl, rfl, rfl, rfl, fun _ => rfl⟩

theorem SamePool.trans {p p' p'' : Mempool} (h : SamePool p p') (h' : SamePool p' p'') :
    SamePool p p'' := by
  obtain ⟨h1, h2, h3, h4, h5, h6⟩ := h
  obtain ⟨g1, g2, g3, g4, g5, g6⟩ := h'
  exact ⟨g1.trans h1, g2.trans h2, g3.trans h3, g4.trans h4, g5.trans h5, fun o => (g6 o).trans (h6 o)⟩

/-- The bases stay where objects change in other fields only. -/
theorem samePool_update (p : Mempool) (ring : Ring Nat) (o : Nat) {x : MempoolObj}
    (hx : x.base = (p.obj o).base) :
    SamePool p { p with freeObjs := ring, obj := Function.update p.obj o x } := by
  refine ⟨rfl, rfl, rfl, rfl, rfl, fun i => ?_⟩
  by_cases hi : i = o
  · rw [hi]
    show (Function.update p.obj o x o).base = _
    rw [Function.update_self, hx]
  · show (Function.update p.obj o x i).base = _
    rw [Function.update_of_ne hi]

theorem samePool_resetObjs (p : Mempool) (os : List Nat) : SamePool p (resetObjs p os) := by
  induction os generalizing p with
  | nil => exact SamePool.refl p
  | cons o os ih => exact (samePool_update p p.freeObjs o (x := mempoolResetObj p (p.obj o)) rfl).trans (ih _)

/-- The pool is still the one that was allocated as `p`, and knows of no object but its own `n`. -/
def PoolOf (n : Nat) (p : Mempool) (s : Pool) : Prop :=
  SamePool p s.mempool ∧ ∃ q, Holds s.mempool.freeObjs q ∧ ∀ o ∈ q ++ s.picked, o < n

theorem mempoolPick_spec {q : List Nat} (h : Holds s.mempool.freeObjs q) :
    SamePool s.mempool (mempoolPick s.mempool).2 ∧
      (∀ o p', mempoolPick s.mempool = (some o, p') → o ∈ q ∧ IsReset p' o) ∧
      ∃ q', Holds (mempoolPick s.mempool).2.freeObjs q' ∧
        ∀ o ∈ q' ++ (mempoolPick s.mempool).1.toList, o ∈ q := by
  have hspec := ringDequeue_spec h
  unfold mempoolPick
  cases q with
  | nil =>
      rw [hspec]
      exact ⟨SamePool.refl _, (fun o p' he => by cases he), [], h, fun o ho => ho⟩
  | cons e q =>
      obtain ⟨r', he, hh, -⟩ := hspec
      rw [he]
      refine ⟨samePool_update _ r' e rfl, fun o p' heq => ?_, q, hh, fun o ho => ?_⟩
      · obtain ⟨hoe, rfl⟩ := Prod.mk.inj heq
        obtain rfl := Option.some.inj hoe
        exact ⟨List.mem_cons_self, isReset_update { s.mempool with freeObjs := r' } e⟩
      · rcases List.mem_append.1 ho with ho | ho
        · exact List.mem_cons_of_mem e ho
        · exact List.mem_cons.2 (Or.inl (List.mem_singleton.1 ho))

theorem mempoolPickMultiple_spec {q : List Nat} (h : Holds s.mempool.freeObjs q) (count : Nat) :
    SamePool s.mempool (mempoolPickMultiple s.mempool count).2 ∧
      (∀ os p', mempoolPickMultiple s.mempool count = (some os, p') →
        ∀ o ∈ os, o ∈ q ∧ IsReset p' o) ∧
      ∃ q', Holds (mempoolPickMultiple s.mempool count).2.freeObjs q' ∧
        ∀ o ∈ q' ++ (mempoolPickMultiple s.mempool count).1.getD [], o ∈ q := by
  have hspec := ringDequeueMultiple_spec h count
  unfold mempoolPickMultiple
  split at hspec
  · obtain ⟨r', he, hh, -⟩ := hspec
    rw [he]
    have hsame : SamePool s.mempool { s.mempool with freeObjs := r' } :=
      ⟨rfl, rfl, rfl, rfl, rfl, fun _ => rfl⟩
    refine ⟨hsame.trans (samePool_resetObjs _ _), fun os p' heq o ho => ?_, q.drop count, ?_,
      fun o ho => ?_⟩
    · obtain ⟨hos, rfl⟩ := Prod.mk.inj heq
      obtain rfl := Option.some.inj hos
      exact ⟨List.mem_of_mem_take ho, resetObjs_reset _ ho⟩
    · show Holds (resetObjs { s.mempool with freeObjs := r' } (q.take count)).freeObjs _
      rw [(resetObjs_frame _ _).1]
      exact hh
    · rcases List.mem_append.1 ho with ho | ho
      · exact List.mem_of_mem_drop ho
      · exact List.mem_of_mem_take ho
  · rw [hspec]
    exact ⟨SamePool.refl _, (fun os p' he => by cases he), q, h, fun o ho => by simpa using ho⟩

/-- What leaves the ring goes to the picked objects. -/
theorem lt_of_pick {q q' os : List Nat} {picked : List Nat} (hlt : ∀ o ∈ q ++ picked, o < n)
    (hsub : ∀ o ∈ q' ++ os, o ∈ q) : ∀ o ∈ q' ++ (picked ++ os), o < n := by
  intro o ho
  simp only [List.mem_append] at hlt hsub ho
  rcases ho with ho | ho | ho
  · exact hlt o (Or.inl (hsub o (Or.inl ho)))
  · exact hlt o (Or.inr ho)
  · exact hlt o (Or.inl (hsub o (Or.inr ho)))

/-- What is put back was picked. -/
theorem lt_of_put {q picked picked' os : List Nat} (hlt : ∀ o ∈ q ++ picked, o < n)
    (hos : ∀ o ∈ os, o ∈ picked) (hleft : ∀ o ∈ picked', o ∈ picked) :
    ∀ o ∈ (q ++ os) ++ picked', o < n := by
  intro o ho
  simp only [List.mem_append] at hlt ho
  rcases ho with (ho | ho) | ho
  · exact hlt o (Or.inl ho)
  · exact hlt o (Or.inr (hos o ho))
  · exact hlt o (Or.inr (hleft o ho))

theorem lt_of_leave {q picked picked' : List Nat} (hlt : ∀ o ∈ q ++ picked, o < n)
    (hleft : ∀ o ∈ picked', o ∈ picked) : ∀ o ∈ q ++ picked', o < n := by
  intro o ho
  simp only [List.mem_append] at hlt ho
  exact hlt o (ho.imp_right (hleft o))

/-- Whatever its user does, a pool stays what it is. -/
theorem poolOf_step {e : PoolEvent} (h : PoolOf n p s) (hs : pool.Step s e s') : PoolOf n p s' := by
  obtain ⟨hsame, q, hh, hlt⟩ := h
  obtain ⟨he, hn⟩ := hs
  cases e with
  | pick =>
      obtain rfl := Except.ok.inj hn
      obtain ⟨hsame', -, q', hh', hsub⟩ := mempoolPick_spec hh
      exact ⟨hsame.trans hsame', q', hh', lt_of_pick hlt hsub⟩
  | pickMultiple count =>
      obtain rfl := Except.ok.inj hn
      obtain ⟨hsame', -, q', hh', hsub⟩ := mempoolPickMultiple_spec hh count
      exact ⟨hsame.trans hsame', q', hh', lt_of_pick hlt hsub⟩
  | put o =>
      obtain rfl := Except.ok.inj hn
      have hspec := ringEnqueue_spec hh o
      have hleft : ∀ i ∈ s.picked.erase o, i ∈ s.picked := fun i hi => List.mem_of_mem_erase hi
      split at hspec
      · obtain ⟨r', henq, hh', -⟩ := hspec
        refine ⟨hsame, q ++ [o], ?_, lt_of_put hlt ?_ hleft⟩
        · show Holds (mempoolPut s.mempool o).freeObjs _
          rw [mempoolPut, henq]
          exact hh'
        · intro i hi
          obtain rfl := List.mem_singleton.1 hi
          exact he
      · refine ⟨hsame, q, ?_, ?_⟩
        · show Holds (mempoolPut s.mempool o).freeObjs _
          rw [mempoolPut, hspec]
          exact hh
        · exact lt_of_leave hlt hleft
  | putMultiple os =>
      obtain rfl := Except.ok.inj hn
      have hspec := ringEnqueueMultiple_spec hh os
      have hleft : ∀ i ∈ s.picked.diff os, i ∈ s.picked := fun i hi => List.diff_subset _ _ hi
      have hsame' : SamePool s.mempool (mempoolPutMultiple s.mempool os) := by
        unfold mempoolPutMultiple
        split
        · exact SamePool.refl _
        · exact ⟨rfl, rfl, rfl, rfl, rfl, fun _ => rfl⟩
      refine ⟨hsame.trans hsame', ?_⟩
      show ∃ q, Holds (mempoolPutMultiple s.mempool os).freeObjs q ∧ _
      unfold mempoolPutMultiple
      by_cases h0 : os.length = 0
      · rw [if_pos h0]
        exact ⟨q, hh, lt_of_leave hlt hleft⟩
      rw [if_neg h0]
      split at hspec
      · obtain ⟨r', henq, hh', -⟩ := hspec
        rw [henq]
        exact ⟨q ++ os, hh', lt_of_put hlt he.2 hleft⟩
      · rw [hspec]
        exact ⟨q, hh, lt_of_leave hlt hleft⟩
  | change o data lhr ltr len =>
      obtain rfl := Except.ok.inj hn
      exact ⟨hsame.trans (samePool_update s.mempool s.mempool.freeObjs o rfl), q, hh, hlt⟩

/-- A new pool holds only objects of its own, even if its ring should be too small for all. -/
theorem ringOfObjs_lt {ring : Ring Nat} (h : Holds ring []) (n : Nat) :
    ∃ q, Holds (ringOfObjs ring n) q ∧ ∀ o ∈ q, o < n := by
  induction n with
  | zero => exact ⟨[], h, fun o ho => absurd ho List.not_mem_nil⟩
  | succ n ih =>
      obtain ⟨q, hh, hlt⟩ := ih
      have hspec := ringEnqueue_spec hh n
      have hnext : ringOfObjs ring (n + 1) = (ringEnqueue (ringOfObjs ring n) n).2 := by
        rw [ringOfObjs, List.range_succ, List.foldl_append]
        rfl
      rw [hnext]
      split at hspec
      · obtain ⟨r', he, hh', -⟩ := hspec
        rw [he]
        refine ⟨q ++ [n], hh', fun o ho => ?_⟩
        rcases List.mem_append.1 ho with ho | ho
        · exact Nat.lt_succ_of_lt (hlt o ho)
        · obtain rfl := List.mem_singleton.1 ho
          exact Nat.lt_succ_self o
      · rw [hspec]
        exact ⟨q, hh, fun o ho => Nat.lt_succ_of_lt (hlt o ho)⟩

end Picked

/-- An object that a pool hands out: the pool was allocated in memory as it asked for, its user has picked,
changed and put back objects in any order, and picks this one now, alone or with others. -/
def Picked (a : MempoolArgs) (obj : MempoolObj) : Prop :=
  ∃ m p mem area es s, SizesFit a ∧ Granted a m mem area ∧ allocEnhancedMempool a m = .ok (some p) ∧
    pool.Run ⟨p, []⟩ es s ∧
    ((∃ o p', mempoolPick s.mempool = (some o, p') ∧ obj = p'.obj o) ∨
      ∃ k os p' o, mempoolPickMultiple s.mempool k = (some os, p') ∧ o ∈ os ∧ obj = p'.obj o)

theorem isReset_new {a : MempoolArgs} {m : MempoolMem} {p : Mempool}
    (ha : allocEnhancedMempool a m = .ok (some p)) {o : Nat} (ho : o < a.nbObjs.toNat) : IsReset p o := by
  obtain ⟨-, mem, ring, p₀, -, -, rfl, rfl⟩ := alloc_cases ha
  obtain ⟨hs, hh, ht, hobj⟩ := initObjs_obj ((mempoolLayout a).base mem
    (if a.sepObjData then m.dataArea.getD 0 else 0)) _ a.nbObjs.toNat
  unfold IsReset
  rw [hobj o ho, hs, hh, ht]
  exact ⟨rfl, rfl, rfl, rfl⟩

/-- The fields of a reset object depend on its pool only. -/
theorem isReset_unique {p p' : Mempool} {o : Nat} (hs : SamePool p p') (h : IsReset p o)
    (h' : IsReset p' o) : p'.obj o = p.obj o := by
  obtain ⟨h1, h2, h3, -, -, h6⟩ := hs
  obtain ⟨hlen, hlhr, hltr, hdata⟩ := h
  obtain ⟨hlen', hlhr', hltr', hdata'⟩ := h'
  have hbase := h6 o
  cases hx : p.obj o
  cases hx' : p'.obj o
  simp only [hx, hx'] at hlen hlhr hltr hdata hlen' hlhr' hltr' hdata' hbase
  simp only [MempoolObj.mk.injEq]
  refine ⟨hbase, ?_, ?_, ?_, ?_⟩
  · rw [hdata, hdata', hbase, h2]
  · rw [hlhr, hlhr', h2]
  · rw [hltr, hltr', h3]
  · rw [hlen, hlen', h1]

/-- A new object is whole, and lies in the address space. -/
theorem whole_new {a : MempoolArgs} {m : MempoolMem} {p : Mempool} {mem area : UInt64} (hfit : SizesFit a)
    (hm : Granted a m mem area) (ha : allocEnhancedMempool a m = .ok (some p)) {o : Nat}
    (ho : o < a.nbObjs.toNat) : ∃ start total, Whole start total (p.obj o) ∧ start.toNat + total < 2 ^ 64 := by
  obtain ⟨hassert, hobj⟩ := alloc_obj hm.poolAt hm.areaAt ha
  have hag := agree hassert (by omega) hfit
  have hplaced : Placed a mem area :=
    ⟨hag, hag.poolSize ▸ hm.poolEnd, fun hsep => hag.dataSize ▸ hm.areaEnd hsep⟩
  have hend : (dataArea (p.obj o)).stop < 2 ^ 64 := by
    rw [dataArea_eq hplaced ho (hobj o ho)]
    exact dataSlot_lt hplaced ho
  exact ⟨_, _, ⟨rfl, rfl, (data_toNat hplaced ho (hobj o ho)).1⟩, hend⟩

/-- A picked object is one of its pool, with the fields of a new one. -/
theorem whole_picked {a : MempoolArgs} {obj : MempoolObj} (h : Picked a obj) :
    ∃ start total, Whole start total obj ∧ start.toNat + total < 2 ^ 64 := by
  obtain ⟨m, p, mem, area, es, s, hfit, hm, ha, hrun, hpick⟩ := h
  have hstart : PoolOf a.nbObjs.toNat p ⟨p, []⟩ := by
    obtain ⟨-, mem', ring, p₀, -, hr, rfl, rfl⟩ := alloc_cases ha
    obtain ⟨q, hh, hlt⟩ := ringOfObjs_lt (holds_alloc hr).1 a.nbObjs.toNat
    refine ⟨SamePool.refl _, q, ?_, fun o ho => hlt o (by simpa using ho)⟩
    rw [(initObjs_ring _ _ _).1]
    exact hh
  obtain ⟨hsame, q, hh, hlt⟩ := hrun.invariant (fun _ _ _ hI hs => poolOf_step hI hs) hstart
  have hfresh : ∀ {o p'}, o ∈ q → IsReset p' o → SamePool s.mempool p' →
      ∃ start total, Whole start total (p'.obj o) ∧ start.toNat + total < 2 ^ 64 := by
    intro o p' ho hr hs
    have ho := hlt o (List.mem_append.2 (Or.inl ho))
    rw [isReset_unique (hsame.trans hs) (isReset_new ha ho) hr]
    exact whole_new hfit hm ha ho
  rcases hpick with ⟨o, p', he, rfl⟩ | ⟨k, os, p', o, he, ho, rfl⟩
  · obtain ⟨hs, hall, -⟩ := mempoolPick_spec hh
    obtain ⟨hoq, hr⟩ := hall o p' he
    rw [he] at hs
    exact hfresh hoq hr hs
  · obtain ⟨hs, hall, -⟩ := mempoolPickMultiple_spec hh k
    obtain ⟨hoq, hr⟩ := hall os p' he o ho
    rw [he] at hs
    exact hfresh hoq hr hs

/-- Resizing a picked object works in exactly the sequences of calls that never shrink its data. A call that
shrinks is one with a negative length that is not more than there is; it should succeed and fails. The
object is any that a pool hands out in any run. -/
theorem resize_picked {a : MempoolArgs} {obj : MempoolObj} (h : Picked a obj) (cs : List ResizeCall) :
    ResizeOk obj cs ↔ NoShrink obj cs := by
  obtain ⟨start, total, hwhole, hfits⟩ := whole_picked h
  exact resizeOk_iff hwhole hfits cs

/-- An object of the pool of `splitObjs`. -/
def splitObj : MempoolObj := ⟨8192, 8256, 64, 28, 100⟩

theorem picked_split : Picked splitObjs splitObj := by
  have ha : ∃ p, allocEnhancedMempool splitObjs splitMem = .ok (some p) ∧
      (mempoolPick p).1 = some 0 ∧ (mempoolPick p).2.obj 0 = splitObj := ⟨_, rfl, rfl, by decide +kernel⟩
  obtain ⟨p, ha, hpick, hobj⟩ := ha
  refine ⟨splitMem, p, 4096, 8192, [], ⟨p, []⟩, by decide, ?_, ha, Machine.Run.nil _,
    Or.inl ⟨0, (mempoolPick p).2, ?_, hobj.symm⟩⟩
  · exact ⟨rfl, fun _ => rfl, by decide, fun _ => by decide, by decide, fun _ => by decide,
      fun _ => Or.inl (by decide)⟩
  · rw [← hpick]

/-- Taking 4 of its 100 bytes off at the front fails, although they are there. -/
theorem resize_shrink : Picked splitObjs splitObj ∧
    mempoolObjPrepend splitObj (-4) = (-1, splitObj) ∧ ¬ResizeOk splitObj [.prepend (-4)] := by
  refine ⟨picked_split, by decide, fun h => ?_⟩
  have hcall := (h.call [] (.prepend (-4)) (List.prefix_refl _)).1.2 (Or.inr (by decide))
  exact absurd hcall (by decide)

/-- What it gives away at the back it does not get back. -/
theorem resize_picked_split : ¬ResizeOk splitObj [.append 8, .append (-8)] ∧
    ResizeOk splitObj [.append 8, .prepend 64, .append (-500)] :=
  ⟨mt (resize_picked picked_split _).1 (by decide), (resize_picked picked_split _).2 (by decide)⟩

end Minipython.Minios
