/-
# Minipython.Shfs.CacheLog — the fate of every caller's token

For each serial number: it was issued as often as it was notified, aborted or is still owed, and it was
issued at most once. So a token that was issued is exactly one of the three, and exactly once.

Tokens are memory that is used again, so a token is known here by the number with which it was issued. The
log is never rewritten; a step adds to it at the end.
-/
import Minipython.Shfs.CacheTokens

namespace Minipython.Shfs

open Minipython.Lib
open Cache

/-- A notification of the token with the serial number `n`. -/
def isNotified (n : Nat) : TokEvent → Bool
  | .notified m _ _ => m == n
  | _ => false

/-- The references with the serial number `n` whose token is not done. -/
def owed (s : Cache) (n : Nat) : Nat :=
  s.refs.countP fun r => r.serial = n ∧ s.aioIsDone r.tok = false

/-- The books are balanced. -/
structure LogInv (s : Cache) : Prop where
  settled : ∀ n, s.log.count (.issued n) =
    s.log.countP (isNotified n) + s.log.count (.aborted n) + owed s n
  once : ∀ n, s.log.count (.issued n) ≤ 1
  fresh : ∀ n, s.issued ≤ n → s.log.count (.issued n) = 0

section LogInv

variable {s s' : Cache} {c : Mem} {r : Ref}

/-- Nothing happened to any token. -/
theorem LogInv.congr (h : LogInv s) (hl : s'.log = s.log) (hi : s.issued ≤ s'.issued)
    (ho : ∀ n, owed s' n = owed s n) : LogInv s' := by
  refine ⟨?_, ?_, ?_⟩
  · rw [hl]
    intro n
    rw [ho]
    exact h.settled n
  · rw [hl]
    exact h.once
  · rw [hl]
    exact fun n hn => h.fresh n (le_trans hi hn)

theorem owed_congr (hr : s'.refs = s.refs)
    (hd : ∀ r ∈ s.refs, s'.aioIsDone r.tok = s.aioIsDone r.tok) (n : Nat) : owed s' n = owed s n := by
  unfold owed
  rw [hr]
  refine List.countP_congr fun r hm => ?_
  rw [hd r hm]

/-- A reference without a token owes nothing. -/
theorem LogInv.giveDone (h : LogInv s) (blank : Bool) : LogInv (s.giveRef c none blank) := by
  refine h.congr (by simp [Cache.giveRef]) (Nat.le_succ _) fun n => ?_
  show (s.refs ++ [(⟨c, none, s.issued, blank⟩ : Ref)]).countP
    (fun r => r.serial = n ∧ s.aioIsDone r.tok = false) = _
  rw [List.countP_append]
  simp [owed, Cache.aioIsDone]

/-- A token that is given out is owed. -/
theorem LogInv.givePending {t : Nat} (h : LogInv s) (hl : s'.log = s.log)
    (hi : s'.issued = s.issued) (hr : s'.refs = s.refs)
    (hd : ∀ r ∈ s.refs, s'.aioIsDone r.tok = s.aioIsDone r.tok)
    (ht : s'.aioIsDone (some t) = false) : LogInv (s'.giveRef c (some t) false) := by
  have hlog : (s'.giveRef c (some t) false).log = s.log ++ [.issued s.issued] := by
    simp [Cache.giveRef, hl, hi]
  have howed : ∀ n, owed (s'.giveRef c (some t) false) n =
      owed s n + if s.issued = n then 1 else 0 := by
    intro n
    rw [← owed_congr hr hd]
    show (s'.refs ++ [(⟨c, some t, s'.issued, false⟩ : Ref)]).countP
      (fun r => r.serial = n ∧ s'.aioIsDone r.tok = false) = _
    rw [List.countP_append, hi]
    by_cases hn : s.issued = n <;> simp [hn, ht, owed]
  have hcount : ∀ n, (s'.giveRef c (some t) false).log.count (.issued n) =
      s.log.count (.issued n) + if s.issued = n then 1 else 0 := by
    intro n
    rw [hlog, List.count_append]
    by_cases hn : s.issued = n <;> simp [hn]
  refine ⟨?_, ?_, ?_⟩
  · intro n
    rw [hcount, howed, h.settled n, hlog, List.countP_append, List.count_append]
    simp only [isNotified, List.countP_cons, List.countP_nil, List.count_cons, List.count_nil]
    simp
    omega
  · intro n
    rw [hcount]
    by_cases hn : s.issued = n
    · rw [if_pos hn, h.fresh n (by omega)]
    · rw [if_neg hn]
      exact h.once n
  · intro n hn
    have hn : s.issued + 1 ≤ n := by
      rw [← hi]
      exact hn
    rw [hcount, if_neg (by omega), h.fresh n (by omega)]

/-- Taking back a reference takes what it owes off the books. -/
theorem owed_erase (hr : r ∈ s.refs) {u : Cache} (hu : u.refs = s.refs.erase r)
    (hd : ∀ r' ∈ s.refs.erase r, u.aioIsDone r'.tok = s.aioIsDone r'.tok) (n : Nat) :
    owed s n = owed u n + if r.serial = n ∧ s.aioIsDone r.tok = false then 1 else 0 := by
  have hcongr : owed u n = (s.refs.erase r).countP
      fun r => r.serial = n ∧ s.aioIsDone r.tok = false := by
    unfold owed
    rw [hu]
    refine List.countP_congr fun r' hm => ?_
    rw [hd r' hm]
  rw [hcongr]
  obtain ⟨p, q, -, hpq, he⟩ := List.exists_erase_eq hr
  rw [owed, he, hpq, List.countP_append, List.countP_append, List.countP_cons]
  by_cases hc : r.serial = n ∧ s.aioIsDone r.tok = false
  · simp [hc]
    omega
  · simp [hc]

theorem LogInv.takeDone (h : LogInv s) (hr : r ∈ s.refs) (hd : s.aioIsDone r.tok = true)
    (hl : s'.log = s.log) (hi : s'.issued = s.issued) (hr' : s'.refs = s.refs.erase r)
    (hdone : ∀ r' ∈ s.refs.erase r, s'.aioIsDone r'.tok = s.aioIsDone r'.tok) : LogInv s' := by
  refine h.congr hl (le_of_eq hi.symm) fun n => ?_
  rw [owed_erase hr hr' hdone n, if_neg (by simp [hd])]
  rfl

/-- A token that is aborted is no longer owed. -/
theorem LogInv.takePending (h : LogInv s) (hr : r ∈ s.refs) (hd : s.aioIsDone r.tok = false)
    (hl : s'.log = s.log ++ [.aborted r.serial]) (hi : s'.issued = s.issued)
    (hr' : s'.refs = s.refs.erase r)
    (hdone : ∀ r' ∈ s.refs.erase r, s'.aioIsDone r'.tok = s.aioIsDone r'.tok) : LogInv s' := by
  have hcount : ∀ n, s'.log.count (.issued n) = s.log.count (.issued n) := by
    intro n
    rw [hl, List.count_append]
    simp
  refine ⟨?_, ?_, ?_⟩
  · intro n
    have := h.settled n
    rw [owed_erase hr hr' hdone n] at this
    rw [hcount, this, hl, List.countP_append, List.count_append]
    by_cases hn : r.serial = n <;> simp [hn, hd, isNotified]
    omega
  · intro n
    rw [hcount]
    exact h.once n
  · intro n hn
    rw [hcount]
    exact h.fresh n (hi ▸ hn)

/-- Finalizing a token that is done owes nothing. -/
theorem LogInv.finalize (h : LogInv s) (hd : s.aioIsDone r.tok = true) (hl : s'.log = s.log)
    (hi : s'.issued = s.issued) (htok : s'.tok = s.tok)
    (hr' : s'.refs = s.refs.map fun r' => if r' = r then { r with tok := none } else r') :
    LogInv s' := by
  refine h.congr hl (le_of_eq hi.symm) fun n => ?_
  unfold owed
  rw [hr', List.countP_map]
  refine List.countP_congr fun r' _ => ?_
  have hsame : ∀ k, s'.aioIsDone k = s.aioIsDone k := fun k => by
    cases k with
    | none => rfl
    | some k => simp [Cache.aioIsDone, htok]
  by_cases he : r' = r
  · have hnone : s'.aioIsDone none = true := rfl
    simp [he, hd, hnone]
  · simp [he, hsame]

/-! ## Notification -/

/-- Notifying the tokens of a chain, each once: what is written and what is recorded. -/
theorem notify_foldl (ret : Int) {l : List Nat} (hnd : l.Nodup) (s : Cache) :
    l.foldl (notifyToken ret) s = { s with
      tok := fun k => if k ∈ l then { s.tok k with ret := ret, infly := 0 } else s.tok k
      log := s.log ++ l.map fun k => .notified (s.tok k).serial ret (s.tok k).cb } := by
  induction l generalizing s with
  | nil => simp
  | cons a l ih =>
      obtain ⟨ha, hnd⟩ := List.nodup_cons.1 hnd
      have hmap : (l.map fun k => TokEvent.notified ((notifyToken ret s a).tok k).serial ret
            ((notifyToken ret s a).tok k).cb) =
          l.map fun k => .notified (s.tok k).serial ret (s.tok k).cb := by
        refine List.map_congr_left fun k hk => ?_
        have hka : k ≠ a := fun he => ha (he ▸ hk)
        simp [notifyToken, Cache.setTok, hka]
      rw [List.foldl_cons, ih hnd, hmap]
      simp only [notifyToken, Cache.setTok, List.map_cons, List.append_assoc, List.singleton_append,
        Cache.mk.injEq, true_and, and_true]
      funext k
      by_cases hka : k = a
      · subst hka
        simp [ha]
      · simp [hka]

/-- A chain is notified in full. -/
theorem LogInv.notify (ret : Int) (h : LogInv s) (ht : TokInv s)
    (hpend : ∀ r ∈ s.refs, r.cce = c → ∃ t, r.tok = some t ∧ (s.tok t).infly ≠ 0)
    (hlog : s'.log = s.log ++ (toksOn s.refs c).map fun k =>
      .notified (s.tok k).serial ret (s.tok k).cb)
    (hi : s'.issued = s.issued) (hr : s'.refs = s.refs)
    (hd : ∀ r ∈ s.refs, s'.aioIsDone r.tok = if r.cce = c then true else s.aioIsDone r.tok) :
    LogInv s' := by
  have hcount : ∀ n, s'.log.count (.issued n) = s.log.count (.issued n) ∧
      s'.log.count (.aborted n) = s.log.count (.aborted n) := by
    intro n
    rw [hlog, List.count_append, List.count_append]
    constructor
    · simp [List.count_eq_zero]
    · simp [List.count_eq_zero]
  -- one notification for every reference on the entry
  have hserial : ∀ refs : List Ref, (∀ r ∈ refs, r ∈ s.refs) → ∀ n,
      ((toksOn refs c).map fun k => TokEvent.notified (s.tok k).serial ret (s.tok k).cb).countP
        (isNotified n) = refs.countP fun r => r.cce = c ∧ r.serial = n := by
    intro refs hrefs n
    induction refs with
    | nil => rfl
    | cons a refs ih =>
        have ih' := ih fun r hr => hrefs r (by simp [hr])
        rw [show a :: refs = [a] ++ refs from rfl, toksOn_append, List.map_append,
          List.countP_append, List.countP_append, ih']
        congr 1
        by_cases ha : a.cce = c
        · obtain ⟨t, htok, -⟩ := hpend a (hrefs a (by simp)) ha
          have hs := (ht.refTok a (hrefs a (by simp)) t htok).2.2
          by_cases hn : a.serial = n <;> simp [toksOn, ha, htok, isNotified, hs, hn]
        · simp [toksOn, ha]
  have howed : ∀ n, owed s n = owed s' n + s.refs.countP fun r => r.cce = c ∧ r.serial = n := by
    intro n
    unfold owed
    rw [hr]
    have key : ∀ refs : List Ref, (∀ r ∈ refs, r ∈ s.refs) →
        (refs.countP fun r => r.serial = n ∧ s.aioIsDone r.tok = false) =
          (refs.countP fun r => r.serial = n ∧ s'.aioIsDone r.tok = false) +
            refs.countP fun r => r.cce = c ∧ r.serial = n := by
      intro refs hrefs
      induction refs with
      | nil => rfl
      | cons a refs ih =>
          have ih' := ih fun r hr => hrefs r (by simp [hr])
          have ha' := hd a (hrefs a (by simp))
          rw [List.countP_cons, List.countP_cons, List.countP_cons, ih', ha']
          by_cases hac : a.cce = c
          · obtain ⟨t, htok, hfly⟩ := hpend a (hrefs a (by simp)) hac
            by_cases hn : a.serial = n <;> simp [hac, hn, htok, Cache.aioIsDone, hfly]
            omega
          · by_cases hn : a.serial = n ∧ s.aioIsDone a.tok = false
            · simp [hac, hn]
              omega
            · simp [hac, hn]
    exact key s.refs fun _ h => h
  refine ⟨?_, ?_, ?_⟩
  · intro n
    have := h.settled n
    rw [howed n] at this
    rw [(hcount n).1, (hcount n).2, this, hlog, List.countP_append, hserial s.refs (fun _ h => h) n]
    omega
  · intro n
    rw [(hcount n).1]
    exact h.once n
  · intro n hn
    rw [(hcount n).1]
    exact h.fresh n (hi ▸ hn)

end LogInv

end Minipython.Shfs
