/-
# Minipython.Lib.BoundedMap — finite maps in slots that are looked up by key

A table binds keys to slots. What it should answer is read off the history of its calls: `bound` is the
slot that a key was last bound to, unless that slot was given back since.

`Holds slots calls` says that the slots hold exactly the keys that are bound. Each kind of call keeps it,
and from it follow the laws of a finite map. A bucket with as many bound keys as it has slots is full
(`crowded_iff`).
-/
import Mathlib.Data.List.Nodup
import Mathlib.Data.List.Perm.Subperm
import Mathlib.Logic.Function.Basic

namespace Minipython.Lib.BoundedMap

universe u v

/-- Keys, of which some count as one, some cannot be bound, and each has its bucket. -/
structure Keys (κ : Type u) where
  same : κ → κ → Prop
  decSame : DecidableRel same
  void : κ → Prop
  bucket : κ → Nat
  equiv : Equivalence same
  void_iff : ∀ a b, same a b → (void a ↔ void b)
  bucket_eq : ∀ a b, same a b → bucket a = bucket b

attribute [instance] Keys.decSame

/-- A call with its answer: the slot of a key, with a flag that tells whether it is new, or nothing. -/
inductive Call (κ : Type u) (ε : Type v) where
  | lookupAdd (k : κ) (answer : Option (ε × Bool))
  | rm (e : ε)
  | clear

variable {κ : Type u} {ε : Type v} [DecidableEq ε]

/-- The slot that a key is bound to after the calls, of which the last comes first. -/
def bound (K : Keys κ) : List (Call κ ε) → κ → Option ε
  | [], _ => none
  | .lookupAdd k (some (e, _)) :: calls, h => if K.same k h then some e else bound K calls h
  | .lookupAdd _ none :: calls, h => bound K calls h
  | .rm e :: calls, h => (bound K calls h).filter (· ≠ e)
  | .clear :: _, _ => none

/-- The slots hold the keys that are bound to them, or one that counts as the same. -/
def Holds (K : Keys κ) (slots : ε → Option κ) (calls : List (Call κ ε)) : Prop :=
  ∀ k e, bound K calls k = some e ↔ ∃ k', slots e = some k' ∧ K.same k' k

/-- As many keys as the bucket of `k` has slots are bound there, no two of which count as one. -/
def Crowded (K : Keys κ) (cap : Nat) (calls : List (Call κ ε)) (k : κ) : Prop :=
  ∃ ks : List κ, ks.length = cap ∧ ks.Pairwise (fun a b => ¬ K.same a b) ∧
    ∀ a ∈ ks, bound K calls a ≠ none ∧ K.bucket a = K.bucket k

/-- What `lookupAdd` has to answer: the slot of a key that is bound, and else a new slot. It fails for a
void key, and for one that is not bound while its bucket is full. -/
def Answers (K : Keys κ) (cap : Nat) (calls : List (Call κ ε)) (k : κ) (x : Option (ε × Bool)) : Prop :=
  (x = none ↔ K.void k ∨ bound K calls k = none ∧ Crowded K cap calls k) ∧
    ∀ e isNew, x = some (e, isNew) →
      if isNew then bound K calls k = none ∧ ∀ a, bound K calls a ≠ some e
      else bound K calls k = some e

section Laws

variable {K : Keys κ} {slots : ε → Option κ} {calls : List (Call κ ε)} {k a b : κ} {e e' : ε}

theorem Keys.same_refl (K : Keys κ) (k : κ) : K.same k k := K.equiv.refl k

/-! ## The laws of a finite map -/

/-- Keys that count as one are bound to one slot. -/
theorem Holds.congr (h : Holds K slots calls) (hs : K.same a b) : bound K calls a = bound K calls b := by
  apply Option.ext
  intro e
  rw [h a e, h b e]
  constructor
  · rintro ⟨k', hk, ha⟩
    exact ⟨k', hk, K.equiv.trans ha hs⟩
  · rintro ⟨k', hk, hb⟩
    exact ⟨k', hk, K.equiv.trans hb (K.equiv.symm hs)⟩

/-- Different keys are bound to different slots. -/
theorem Holds.distinct (h : Holds K slots calls) (ha : bound K calls a = some e)
    (hb : bound K calls b = some e) : K.same a b := by
  obtain ⟨k, hk, hka⟩ := (h a e).1 ha
  obtain ⟨k', hk', hkb⟩ := (h b e).1 hb
  rw [hk] at hk'
  obtain rfl := Option.some.inj hk'
  exact K.equiv.trans (K.equiv.symm hka) hkb

/-- A key in a slot is bound to it. -/
theorem Holds.bound_slot (h : Holds K slots calls) (he : slots e = some k) : bound K calls k = some e :=
  (h k e).2 ⟨k, he, K.same_refl k⟩

/-- Two slots do not hold the same key. -/
theorem Holds.slot_inj (h : Holds K slots calls) (ha : slots e = some a) (hb : slots e' = some b)
    (hs : K.same a b) : e = e' := by
  have hbound := h.bound_slot ha
  rw [h.congr hs, h.bound_slot hb] at hbound
  exact (Option.some.inj hbound).symm

/-! ## Calls -/

theorem Holds.nil (K : Keys κ) : Holds K (fun _ : ε => none) [] := by
  intro k e
  constructor
  · intro h
    cases h
  · rintro ⟨k', hk, -⟩
    cases hk

/-- A key that is bound is found. -/
theorem Holds.hit (h : Holds K slots calls) (hk : bound K calls k = some e) (isNew : Bool) :
    Holds K slots (.lookupAdd k (some (e, isNew)) :: calls) := by
  intro a e'
  rw [← h a e', bound]
  split
  · rename_i hs
    rw [← h.congr hs, hk]
  · exact Iff.rfl

/-- A key that is not bound gets a free slot. -/
theorem Holds.new (h : Holds K slots calls) (hk : bound K calls k = none) (hfree : slots e = none)
    (hb : K.same b k) (isNew : Bool) :
    Holds K (Function.update slots e (some b)) (.lookupAdd k (some (e, isNew)) :: calls) := by
  intro a e'
  rw [bound]
  by_cases he : e' = e
  · subst he
    rw [Function.update_self]
    by_cases hs : K.same k a
    · rw [if_pos hs]
      exact ⟨fun _ => ⟨b, rfl, K.equiv.trans hb hs⟩, fun _ => rfl⟩
    · rw [if_neg hs, h a e', hfree]
      constructor
      · rintro ⟨k', hk', -⟩
        cases hk'
      · rintro ⟨k', hk', hka⟩
        obtain rfl := Option.some.inj hk'
        exact absurd (K.equiv.trans (K.equiv.symm hb) hka) hs
  · rw [Function.update_of_ne he, ← h a e']
    by_cases hs : K.same k a
    · rw [if_pos hs, ← h.congr hs, hk]
      exact ⟨fun hh => absurd (Option.some.inj hh).symm he, fun hh => by cases hh⟩
    · rw [if_neg hs]

/-- A call that fails changes nothing. -/
theorem Holds.fail (h : Holds K slots calls) : Holds K slots (.lookupAdd k none :: calls) := h

/-- A slot is given back. -/
theorem Holds.rm (h : Holds K slots calls) (e : ε) :
    Holds K (Function.update slots e none) (.rm e :: calls) := by
  intro a e'
  rw [bound, Option.filter_eq_some_iff, h a e']
  by_cases he : e' = e
  · subst he
    rw [Function.update_self]
    constructor
    · rintro ⟨-, hne⟩
      exact absurd rfl (of_decide_eq_true hne)
    · rintro ⟨k', hk, -⟩
      cases hk
  · rw [Function.update_of_ne he]
    exact ⟨fun hh => hh.1, fun hh => ⟨hh, decide_eq_true he⟩⟩

/-- All slots are given back. -/
theorem Holds.clear (K : Keys κ) (calls : List (Call κ ε)) : Holds K (fun _ => none) (.clear :: calls) :=
  Holds.nil K

/-! ## Full buckets -/

/-- If the slots `places` are those of the bucket of `k`, it is crowded exactly if none of them is free. -/
theorem Holds.crowded_iff (h : Holds K slots calls) {places : List ε} (hnd : places.Nodup)
    (hplaces : ∀ e a, slots e = some a → (e ∈ places ↔ K.bucket a = K.bucket k)) :
    Crowded K places.length calls k ↔ ∀ e ∈ places, slots e ≠ none := by
  constructor
  · rintro ⟨ks, hlen, hdiff, hks⟩
    -- the keys are bound to as many slots of the bucket as there are
    have hmem : ∀ e ∈ ks.filterMap (bound K calls), e ∈ places ∧ slots e ≠ none := by
      intro e he
      obtain ⟨a, ha, hb⟩ := List.mem_filterMap.1 he
      obtain ⟨k', hk', hs⟩ := (h a e).1 hb
      refine ⟨(hplaces e k' hk').2 ?_, fun hn => by rw [hk'] at hn; cases hn⟩
      rw [K.bucket_eq _ _ hs]
      exact (hks a ha).2
    have hcount : (ks.filterMap (bound K calls)).length = places.length := by
      rw [List.length_filterMap_eq_countP, ← hlen, List.countP_eq_length]
      intro a ha
      exact Option.isSome_iff_ne_none.2 (hks a ha).1
    have hnodup : (ks.filterMap (bound K calls)).Nodup := by
      rw [List.Nodup, List.pairwise_filterMap]
      refine hdiff.imp fun hab e he e' he' heq => ?_
      subst heq
      exact hab (h.distinct he he')
    have hperm := (List.subperm_of_subset hnodup fun e he => (hmem e he).1).perm_of_length_le
      (Nat.le_of_eq hcount.symm)
    intro e he
    exact (hmem e (hperm.mem_iff.2 he)).2
  · intro hused
    refine ⟨places.filterMap slots, ?_, ?_, ?_⟩
    · rw [List.length_filterMap_eq_countP, List.countP_eq_length]
      exact fun e he => Option.isSome_iff_ne_none.2 (hused e he)
    · rw [List.pairwise_filterMap]
      refine hnd.imp fun hne a ha b hb hs => ?_
      exact hne (h.slot_inj ha hb hs)
    · intro a ha
      obtain ⟨e, he, hslot⟩ := List.mem_filterMap.1 ha
      refine ⟨?_, (hplaces e a hslot).1 he⟩
      rw [h.bound_slot hslot]
      exact Option.some_ne_none e

end Laws

end Minipython.Lib.BoundedMap
