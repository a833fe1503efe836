/-
# Minipython.Shfs.Fio — opening and closing files (shfs_fio.c)

The functions of this module work on a mounted table; the checks of `shfs_mounted` and the counter
`shfs_nb_open` belong to the calls in `Minipython.Shfs.System`. A file descriptor is the bucket entry
itself, so it is named by its slot.

The build has `SHFS_OPENBYNAME`. What `SHFS_STATS` adds is in `Minipython.Shfs.Stats`.
-/
import Minipython.Shfs.Volume

namespace Minipython.Shfs

open Minipython.Lib

/-! ## Paths -/

/-- `SHFS_HASH_INDICATOR_PREFIX`, a question mark. -/
def shfsHashIndicatorPrefix : UInt8 := 63

/-- One digit of a hexadecimal digest. -/
def hexDigit (c : UInt8) : Option UInt8 :=
  if 48 ≤ c ∧ c ≤ 57 then some (c - 48)
  else if 97 ≤ c ∧ c ≤ 102 then some (c - 97 + 10)
  else if 65 ≤ c ∧ c ≤ 70 then some (c - 65 + 10)
  else none

/-- The loop of `hash_parse` for `n` bytes; the string has to end behind them. -/
def hashParseBytes : Nat → List UInt8 → Option (List UInt8)
  | 0, [] => some []
  | n + 1, u :: l :: rest => do
      let nu ← hexDigit u
      let nl ← hexDigit l
      let bytes ← hashParseBytes n rest
      return ((nu <<< 4) ||| nl) :: bytes
  | _, _ => none

/-- `hash_parse`. The digit count `hlen * 2` is computed in 8 bits. -/
def hashParse (s : List UInt8) (hlen : Nat) : Option Hash512 :=
  (hashParseBytes (hlen * 2 % 256 / 2) s).map fun bytes i => bytes.getD i 0

/-- `strncmp(s, mem, n) == 0` for a string `s` given by its characters. -/
def strncmpEq : List UInt8 → Bytes → Nat → Bool
  | _, _, 0 => true
  | [], mem, _ => mem 0 == 0
  | c :: cs, mem, n + 1 => c == mem 0 && (c == 0 || strncmpEq cs (Bytes.window mem 1) n)

namespace Hentry

/-- The offset of `name` in `struct shfs_hentry`. -/
def nameOff : Nat := 181

/-- `sizeof(hentry->name)`. -/
def nameSize : Nat := 64

end Hentry

/-! ## Lookups -/

/-- `_shfs_lookup_bentry_by_hash`. -/
def shfsLookupBentryByHash (v : Vol) (h : Hash512) : Option HtableEl := shfsBtableLookup v.bt h

/-- `_shfs_lookup_bentry_by_name`. -/
def shfsLookupBentryByName (v : Vol) (name : List UInt8) : Option HtableEl :=
  (foreachHtableEl v.bt).find? fun el =>
    decide (name.length ≤ Hentry.nameSize) &&
      strncmpEq name (Bytes.window (v.hentry el) Hentry.nameOff) Hentry.nameSize

/-- The path asks for the default file: it is empty or the indicator alone. -/
def isDefaultPath (path : List UInt8) : Bool :=
  path == [] || path == [shfsHashIndicatorPrefix]

/-- The lookup of `shfs_fio_open`, either by digest, by name or the default file. -/
def shfsFioLookup (v : Vol) (path : List UInt8) : Option HtableEl :=
  if isDefaultPath path then v.defBentry
  else if path.head? = some shfsHashIndicatorPrefix then
    match hashParse path.tail v.conf.hlen with
    | none => none
    | some h => shfsLookupBentryByHash v h
  else shfsLookupBentryByName v path

/-! ## Reference counting -/

/-- `trydown`: take the semaphore if its count allows; the flag says whether it did. -/
def trydown (sem : Nat) : Bool × Nat := if 0 < sem then (true, sem - 1) else (false, sem)

/-- `_shfs_fio_open_bentry` without the counter of open files. The result of `trydown` is ignored. -/
def shfsFioOpenBentry (v : Vol) (el : HtableEl) : Except Errno Vol :=
  let b := v.bentry el
  if b.update then .error .ebusy
  else
    let b := if b.refcount = 0 then { b with updatelock := (trydown b.updatelock).2, cookie := none }
      else b
    .ok (v.setBentry el { b with refcount := b.refcount + 1 })

/-- The counting of `shfs_fio_openf`. -/
def shfsFioClone (v : Vol) (el : HtableEl) : Vol :=
  v.setBentry el { v.bentry el with refcount := (v.bentry el).refcount + 1 }

/-- The counting of `shfs_fio_close`. -/
def shfsFioRelease (v : Vol) (el : HtableEl) : Vol :=
  let b := { v.bentry el with refcount := (v.bentry el).refcount - 1 }
  v.setBentry el (if b.refcount = 0 then { b with updatelock := b.updatelock + 1 } else b)

/-- A successful open, in one write. -/
theorem shfsFioOpenBentry_ok {v v' : Vol} {el : HtableEl} :
    shfsFioOpenBentry v el = .ok v' ↔ (v.bentry el).update = false ∧ v' = v.setBentry el
      { v.bentry el with
        updatelock := if (v.bentry el).refcount = 0 then (trydown (v.bentry el).updatelock).2
          else (v.bentry el).updatelock
        cookie := if (v.bentry el).refcount = 0 then none else (v.bentry el).cookie
        refcount := (v.bentry el).refcount + 1 } := by
  unfold shfsFioOpenBentry
  by_cases hu : (v.bentry el).update = true
  · simp [hu]
  · by_cases h0 : (v.bentry el).refcount = 0 <;> simp [hu, h0, eq_comm]

/-- A close, in one write. -/
theorem shfsFioRelease_eq (v : Vol) (el : HtableEl) :
    shfsFioRelease v el = v.setBentry el
      { v.bentry el with
        refcount := (v.bentry el).refcount - 1
        updatelock := if (v.bentry el).refcount - 1 = 0 then (v.bentry el).updatelock + 1
          else (v.bentry el).updatelock } := by
  unfold shfsFioRelease
  by_cases h0 : (v.bentry el).refcount - 1 = 0 <;> simp [h0]

/-! ## What the lookups can find -/

/-- A lookup by digest finds a slot in use. -/
theorem shfsLookupBentryByHash_used {v : Vol} {h : Hash512} {el : HtableEl} {l : List HtableEl}
    (hl : v.bt.Listed l) (hb : 0 < v.bt.nbBkts) (hf : shfsLookupBentryByHash v h = some el) :
    el ∈ l := by
  unfold shfsLookupBentryByHash shfsBtableLookup at hf
  exact htableLookup_used hl hb hf

/-- A lookup by name finds a slot in use. -/
theorem shfsLookupBentryByName_used {v : Vol} {name : List UInt8} {el : HtableEl}
    {l : List HtableEl} (hl : v.bt.Listed l) (hf : shfsLookupBentryByName v name = some el) :
    el ∈ l := by
  unfold shfsLookupBentryByName at hf
  rw [foreachHtableEl_eq hl] at hf
  exact List.mem_of_find?_eq_some hf

/-- Every path leads to a slot in use, except that the default path leads where `def_bentry` points. -/
theorem shfsFioLookup_used {v : Vol} {path : List UInt8} {el : HtableEl} {l : List HtableEl}
    (hl : v.bt.Listed l) (hb : 0 < v.bt.nbBkts) (hf : shfsFioLookup v path = some el) :
    (isDefaultPath path = true ∧ v.defBentry = some el) ∨ el ∈ l := by
  unfold shfsFioLookup at hf
  by_cases hd : isDefaultPath path = true
  · left
    simpa [hd] using hf
  right
  simp only [hd, Bool.false_eq_true, if_false] at hf
  split at hf
  · cases hp : hashParse path.tail v.conf.hlen with
    | none => simp [hp] at hf
    | some h =>
        rw [hp] at hf
        exact shfsLookupBentryByHash_used hl hb hf
  · exact shfsLookupBentryByName_used hl hf

end Minipython.Shfs
