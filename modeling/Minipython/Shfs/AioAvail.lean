/-
# Minipython.Shfs.AioAvail — request objects for a striped request (shfs.c, shfs_aio_chunk)

In front of its loop `shfs_aio_chunk` checks that each member has enough free request objects, so that no
`blkdev_async_io` of the loop runs short of them. It compares with the number of stripes divided by the
number of members. The loop deals the stripes round, from a member that depends on `start`: where the
division leaves a remainder, as many members get one stripe more.

`avail_check_iff` says when the check is enough all the same.

The number of stripes that fall to a member is `stripesOf`: as many as there are whole rounds, and one more
for the members that the last, broken round comes to. In combined mode a chunk has a stripe on each member
and there is no such round, unless the numbers of the stripes wrap. `RemainderFits` is then the condition: a
member that gets one stripe more has more objects than the check asks for.

The second half of the theorem is about the loop. Other requests may put objects back while it yields, in
any number and at any time (`puts`); the loop runs short in none of these cases, or it does in one where
nobody puts any back.
-/
import Mathlib.Data.Int.CardIntervalMod
import Minipython.Shfs.Aio

namespace Minipython.Shfs

open Minipython.Lib

/-! ## The loop -/

/-- The stripes of `[a, a + k)` that are on the member `m` of `n`. -/
def stripesOf (n a k m : Nat) : Nat := (List.range' a k).countP fun strp => strp % n == m

/-- The setup loop of `shfs_aio_chunk` over the free request objects of the members: `blkdev_async_io` takes
one for each stripe, and fails with `-EAGAIN` where there is none. `puts` are the objects that completions
give back in front of a stripe. -/
def setupObjs (n : Nat) (puts : Nat → Nat → Nat) : Nat → Nat → (Nat → Nat) → Bool
  | 0, _, _ => true
  | k + 1, strp, avail =>
      let free := fun m => avail m + puts strp m
      let m := strp % n
      if free m = 0 then false
      else setupObjs n puts k (strp + 1) (Function.update free m (free m - 1))

theorem stripesOf_succ (n a k m : Nat) :
    stripesOf n a (k + 1) m = stripesOf n (a + 1) k m + if m = a % n then 1 else 0 := by
  unfold stripesOf
  rw [List.range'_succ, List.countP_cons]
  congr 1
  by_cases hm : m = a % n
  · rw [if_pos hm, if_pos (beq_iff_eq.2 hm.symm)]
  · rw [if_neg hm, if_neg fun he => hm (beq_iff_eq.1 he).symm]

/-- The stripes of a member are as many as it gets in whole rounds, and one more if it is among the first
ones of a round that is not whole. -/
theorem stripesOf_eq {n m : Nat} (hm : m < n) (a k : Nat) :
    stripesOf n a k m = k / n + if (m + (n - a % n)) % n < k % n then 1 else 0 := by
  have hn : 0 < n := by omega
  have hmod : a % n < n := Nat.mod_lt a hn
  -- the place in the round, counted from the first stripe
  have hplace : ∀ i, ((a + i) % n == m) = true ↔ i ≡ m + (n - a % n) [MOD n] := by
    intro i
    have ha : a + (n - a % n) ≡ 0 [MOD n] := by
      have hdiv := Nat.div_add_mod a n
      have hsum : a + (n - a % n) = n * (a / n + 1) := by
        rw [Nat.mul_succ]
        omega
      rw [hsum]
      exact (Nat.modEq_zero_iff_dvd).2 (Nat.dvd_mul_right _ _)
    rw [beq_iff_eq]
    constructor
    · intro he
      have h1 : a + i ≡ m [MOD n] := he.trans (Nat.mod_eq_of_lt hm).symm
      have h2 := (h1.add_right (n - a % n)).symm
      have h3 : a + i + (n - a % n) ≡ i [MOD n] := by
        have hc := ha.add_left i
        rw [Nat.add_zero] at hc
        have hswap : a + i + (n - a % n) = i + (a + (n - a % n)) := by omega
        rw [hswap]
        exact hc
      exact (h2.trans h3).symm
    · intro hi
      have h1 := hi.add_left a
      have h2 : a + (m + (n - a % n)) ≡ m [MOD n] := by
        have hc := ha.add_left m
        rw [Nat.add_zero] at hc
        have hswap : a + (m + (n - a % n)) = m + (a + (n - a % n)) := by omega
        rw [hswap]
        exact hc
      exact Eq.trans (h1.trans h2) (Nat.mod_eq_of_lt hm)
  rw [← Nat.count_modEq_card k hn]
  unfold stripesOf
  rw [List.range'_eq_map_range, List.countP_map, Nat.count]
  exact List.countP_congr fun i _ => (hplace i).trans decide_eq_true_iff.symm

/-- Whoever has the objects for its stripes does not run short, whatever comes back meanwhile. -/
theorem setupObjs_of_le {n : Nat} (puts : Nat → Nat → Nat) {k a : Nat} {avail : Nat → Nat}
    (h : ∀ m, stripesOf n a k m ≤ avail m) : setupObjs n puts k a avail = true := by
  induction k generalizing a avail with
  | zero => rfl
  | succ k ih =>
      have hown := h (a % n)
      rw [stripesOf_succ, if_pos rfl] at hown
      unfold setupObjs
      simp only
      rw [if_neg (by omega)]
      apply ih
      intro m
      have hle := h m
      rw [stripesOf_succ] at hle
      rw [Function.update_apply]
      split
      · rename_i hm
        subst hm
        omega
      · omega

/-- If nothing comes back, the objects have to be there. -/
theorem le_of_setupObjs {n k a : Nat} {avail : Nat → Nat} (h : setupObjs n (fun _ _ => 0) k a avail = true) :
    ∀ m, stripesOf n a k m ≤ avail m := by
  induction k generalizing a avail with
  | zero => exact fun m => Nat.zero_le _
  | succ k ih =>
      unfold setupObjs at h
      simp only [Nat.add_zero] at h
      split at h
      · cases h
      · rename_i hne
        intro m
        have hle := ih h m
        rw [Function.update_apply] at hle
        rw [stripesOf_succ]
        by_cases hm : m = a % n
        · subst hm
          rw [if_pos rfl] at hle ⊢
          omega
        · rw [if_neg hm] at hle ⊢
          exact hle

/-! ## The check -/

/-- Every member that gets one stripe more than the others has an object more than the check asks for. Those
members follow the first stripe, as many as the division leaves over. -/
def RemainderFits (g : VolGeom) (start len : Nat) (avail : Nat → Nat) : Prop :=
  let r := aioRange g start len
  ∀ m < g.nbMembers, (m + (g.nbMembers - r.1 % g.nbMembers)) % g.nbMembers < (r.2 - r.1) % g.nbMembers →
    (r.2 - r.1) / g.nbMembers < avail m

instance (g : VolGeom) (start len : Nat) (avail : Nat → Nat) : Decidable (RemainderFits g start len avail) :=
  inferInstanceAs (Decidable (∀ m, m < _ → _))

/-- Nothing is left over of whole rounds. -/
theorem remainderFits_of_dvd {g : VolGeom} {start len : Nat}
    (h : g.nbMembers ∣ (aioRange g start len).2 - (aioRange g start len).1) (avail : Nat → Nat) :
    RemainderFits g start len avail := by
  intro m _ hlt
  rw [Nat.mod_eq_zero_of_dvd h] at hlt
  exact absurd hlt (Nat.not_lt_zero _)

/-- A combined request that does not wrap around is one of whole rounds. -/
theorem remainderFits_combined {g : VolGeom} {start len : Nat} (hmode : g.stripemode = .combined)
    (hfit : (start + len) * g.nbMembers < u64Size) (avail : Nat → Nat) : RemainderFits g start len avail := by
  apply remainderFits_of_dvd
  have hle : start + len ≤ (start + len) * g.nbMembers := Nat.le_mul_of_pos_right _ g.nbMembers_pos
  have hstart : start * g.nbMembers ≤ (start + len) * g.nbMembers :=
    Nat.mul_le_mul_right _ (Nat.le_add_right _ _)
  unfold aioRange
  simp only [hmode]
  rw [wrap64_of_lt (by omega : start * g.nbMembers < u64Size), wrap64_of_lt (by omega : start + len < u64Size),
    wrap64_of_lt hfit, ← Nat.sub_mul]
  exact Nat.dvd_mul_left _ _

/-- What the check in front of the loop has asked for. -/
theorem aioStart_avail {g : VolGeom} {mounted : Bool} {avail : Nat → Nat} {token : Bool} {start len : Nat}
    {s : Aio} (h : aioStart g mounted avail token start len = .ok s) :
    ∀ m < g.nbMembers, numReqPerMember g start len ≤ avail m := by
  intro m hm
  unfold aioStart at h
  cases mounted with
  | false => cases h
  | true =>
      by_cases hany : (List.range g.nbMembers).any (fun m => avail m < numReqPerMember g start len) = true
      · simp only [Bool.not_true, Bool.false_eq_true, if_false] at h
        rw [if_pos hany] at h
        cases h
      · by_contra hlt
        apply hany
        exact List.any_eq_true.2 ⟨m, List.mem_range.2 hm, decide_eq_true (by omega)⟩

theorem stripesOf_zero_of_ge {n m : Nat} (hm : n ≤ m) (hn : 0 < n) (a k : Nat) : stripesOf n a k m = 0 := by
  apply List.countP_eq_zero.2
  intro strp _ he
  have hlt := Nat.mod_lt strp hn
  have heq := beq_iff_eq.1 he
  omega

/-- A call whose check passes: no member has less objects than stripes, and the loop does not run short,
exactly if the members that get one stripe more have one object more. The loop may be interrupted by others
who put objects back, at any place and in any number; the second equivalence asks that it does not run short
in any of these cases. -/
theorem avail_check_iff {g : VolGeom} {mounted : Bool} {avail : Nat → Nat} {token : Bool} {start len : Nat}
    {s : Aio} (h : aioStart g mounted avail token start len = .ok s) :
    ((∀ m < g.nbMembers, stripesOf g.nbMembers s.strp (s.endS - s.strp) m ≤ avail m) ↔
      RemainderFits g start len avail) ∧
    ((∀ puts, setupObjs g.nbMembers puts (s.endS - s.strp) s.strp avail = true) ↔
      RemainderFits g start len avail) := by
  rcases aioStart_inv h with ⟨-, -, -, hstrp, hend, -⟩
  have hcheck := aioStart_avail h
  have hn := g.nbMembers_pos
  have hshare : (∀ m < g.nbMembers, stripesOf g.nbMembers s.strp (s.endS - s.strp) m ≤ avail m) ↔
      RemainderFits g start len avail := by
    unfold RemainderFits
    simp only
    rw [← hstrp, ← hend]
    apply forall₂_congr
    intro m hm
    rw [stripesOf_eq hm]
    -- the check has asked for whole rounds
    have hrounds : (s.endS - s.strp) / g.nbMembers ≤ avail m := by
      by_cases hle : s.strp ≤ s.endS
      · have hq := hcheck m hm
        have hlt : s.endS < u64Size := by
          rw [hend]
          unfold aioRange
          cases g.stripemode <;> exact wrap64_lt _
        unfold numReqPerMember at hq
        rw [← hstrp, ← hend] at hq
        have hwrap : wrap64 (s.endS + u64Size - s.strp) = s.endS - s.strp := by
          have heq : s.endS + u64Size - s.strp = (s.endS - s.strp) + u64Size := by omega
          unfold wrap64
          rw [heq, Nat.add_mod_right, Nat.mod_eq_of_lt (by omega)]
        rwa [hwrap] at hq
      · rw [Nat.sub_eq_zero_of_le (by omega), Nat.zero_div]
        exact Nat.zero_le _
    split <;> omega
  refine ⟨hshare, ?_⟩
  rw [← hshare]
  constructor
  · exact fun hall m _ => le_of_setupObjs (hall fun _ _ => 0) m
  · intro hle puts
    apply setupObjs_of_le
    intro m
    by_cases hm : m < g.nbMembers
    · exact hle m hm
    · rw [stripesOf_zero_of_ge (by omega) hn]
      exact Nat.zero_le _

/-- Two members, and stripes that are chunks. -/
def independentPair : VolGeom := .pair .independent

/-- Three chunks with two free objects on each member. -/
theorem avail_check_iff_three : ∃ s, aioStart independentPair true (fun _ => 2) true 0 3 = .ok s ∧
    ((∀ m < 2, stripesOf 2 s.strp (s.endS - s.strp) m ≤ 2) ↔ RemainderFits independentPair 0 3 fun _ => 2) ∧
    ((∀ puts, setupObjs 2 puts (s.endS - s.strp) s.strp (fun _ => 2) = true) ↔
      RemainderFits independentPair 0 3 fun _ => 2) :=
  ⟨_, rfl, @avail_check_iff independentPair true (fun _ => 2) true 0 3 _ rfl⟩

/-- One chunk passes the check without any free object: half a stripe for each member is none. -/
theorem avail_check_misses_remainder :
    ¬ ∀ (g : VolGeom) (avail : Nat → Nat) (start len : Nat) (s : Aio),
      aioStart g true avail true start len = .ok s →
        ∀ m < g.nbMembers, stripesOf g.nbMembers s.strp (s.endS - s.strp) m ≤ avail m := by
  intro hall
  have hone := hall independentPair (fun _ => 0) 0 1 _ rfl 1 (by decide)
  exact absurd hone (by decide)

end Minipython.Shfs
