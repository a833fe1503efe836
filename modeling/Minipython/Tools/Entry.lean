/-
# Minipython.Tools.Entry — what the tokens of shfs_admin put into a table entry

Digests come as hex strings (hash.h, `hash_parse`), or from a digest library, which is a parameter. The
two kinds of entries are written field by field over whatever the slot held before: `fileHentry` for
`actn_addfile` and `linkHentry` for `actn_addlink` (shfs_admin.c, shfs_defs.h).

C strings are lists of their bytes without the terminator.

The offsets are those of `struct shfs_hentry`, whose link attributes are not packed: the port of a link is
aligned to two bytes, so that the path and the fields behind the union lie one byte higher than their sizes
add up to. The fields that a token leaves out keep the bytes of the slot.
-/
import Minipython.Shfs.Hash
import Minipython.Tools.MkfsArgs

namespace Minipython.Tools.Admin

open Minipython.Lib
open Minipython.Shfs

/-- A C string. -/
abbrev CString := List UInt8

/-- A property of all characters is tried on those that occur, not on all 256. -/
instance decidableForallChar (s : CString) (p : UInt8 → Prop) [DecidablePred p] :
    Decidable (∀ c ∈ s, p c) :=
  List.decidableBAll p s

/-! ## Digests -/

/-- The value of a hex digit. -/
def nibble (c : UInt8) : Option UInt8 :=
  if 48 ≤ c ∧ c ≤ 57 then some (c - 48)
  else if 97 ≤ c ∧ c ≤ 102 then some (c - 97 + 10)
  else if 65 ≤ c ∧ c ≤ 70 then some (c - 65 + 10)
  else none

/-- The loop of `hash_parse`: `n` bytes are left, `i` have been stored. -/
def hashParseFrom (inp : CString) : Nat → Nat → Hash512 → Option Hash512
  | 0, i, h => if inp.getD (2 * i) 0 = 0 then some h else none
  | n + 1, i, h =>
      match nibble (inp.getD (2 * i) 0), nibble (inp.getD (2 * i + 1) 0) with
      | some nu, some nl => hashParseFrom inp n (i + 1) (Function.update h i (nu <<< 4 ||| nl))
      | _, _ => none

/-- `hash_parse`. -/
def hashParse (inp : CString) (h : Hash512) (hlen : Nat) : Option Hash512 := hashParseFrom inp hlen 0 h

/-- The algorithms of the digest library. -/
inductive HashId where
  | sha1
  | sha224
  | sha256
  | sha384
  | sha512
  | crc32
  | md5
  | haval128
  | haval160
  | haval192
  | haval224
  | haval256
  deriving DecidableEq, Repr

/-- `shfs_mhash_type`; without a result the process ends. -/
def shfsMhashType (hfunc hlen : UInt8) : Option HashId :=
  if hfunc = Shfunc.code .sha then
    if hlen = 20 then some .sha1
    else if hlen = 28 then some .sha224
    else if hlen = 32 then some .sha256
    else if hlen = 48 then some .sha384
    else if hlen = 64 then some .sha512
    else none
  else if hfunc = Shfunc.code .crc then
    if hlen = 4 then some .crc32 else none
  else if hfunc = Shfunc.code .md5 then
    if hlen = 16 then some .md5 else none
  else if hfunc = Shfunc.code .haval then
    if hlen = 16 then some .haval128
    else if hlen = 20 then some .haval160
    else if hlen = 24 then some .haval192
    else if hlen = 28 then some .haval224
    else if hlen = 32 then some .haval256
    else none
  else none

/-- The digest that the library computes of all bytes it was given. -/
abbrev MhashLib := HashId → List UInt8 → Hash512

/-! ## Tokens -/

/-- `enum ltype`. -/
inductive Ltype where
  | redirect
  | raw
  | auto
  deriving DecidableEq, Repr

/-- The value of `l_attr.type`. -/
def Ltype.code : Ltype → UInt8
  | .redirect => 0
  | .raw => 1
  | .auto => 2

/-- The data of a `struct token`: path (or digest), mime type, name, digest, link type. -/
structure Token where
  path : CString
  optstr0 : Option CString
  optstr1 : Option CString
  optstr2 : Option CString
  optltype : Ltype
  deriving Repr

/-- `basename`. -/
def basename (path : CString) : CString :=
  let trimmed := (path.reverse.dropWhile (· == 47)).reverse
  if path = [] then [46]
  else if trimmed = [] then [47]
  else (trimmed.reverse.takeWhile (· != 47)).reverse

/-- `strncpy(e + off, src, n)`: a shorter string is followed by zeros. -/
def strncpy (e : Hentry) (off : Nat) (src : CString) (n : Nat) : Hentry := fun i =>
  if off ≤ i ∧ i < off + n then src.getD (i - off) 0 else e i

/-- `memset(e + off, 0, n)`. -/
def clearBytes (e : Hentry) (off n : Nat) : Hentry := Bytes.blit e off Bytes.zeros n

/-- The name of an object: the option or the last part of the path. -/
def Token.name (j : Token) : CString := j.optstr1.getD (basename j.path)

/-! ## File entries -/

/-- The fields that `actn_addfile` writes. -/
def fileHentry (e : Hentry) (hlen : Nat) (fhash : Hash512) (cchk fsize now : Nat) (j : Token) : Hentry :=
  let e := hashCopy e fhash hlen
  let e := Bytes.putLe e 64 8 cchk
  let e := Bytes.putLe e 72 8 0
  let e := Bytes.putLe e 80 8 fsize
  let e := Bytes.putLe e 172 8 now
  let e := Bytes.putLe e 180 1 0
  let e := clearBytes e 88 32
  let e := clearBytes e 120 16
  let e := clearBytes e 181 64
  let e := match j.optstr0 with
    | some mime => strncpy e 88 mime 32
    | none => e
  strncpy e 181 j.name 64

/-! ## Links -/

/-- A field of a URL by its offset and length; an unset field has neither. -/
structure UrlField where
  set : Bool
  off : Nat
  len : Nat
  deriving DecidableEq, Repr

/-- What `http_parser_parse_url` reports. -/
structure HttpParserUrl where
  schema : UrlField
  host : UrlField
  port : Option UInt16
  path : UrlField
  query : UrlField
  fragment : UrlField
  userinfo : UrlField
  deriving DecidableEq, Repr

/-- The part of a string from `off` on. -/
def part (s : CString) (f : UrlField) : CString := (s.drop f.off).take f.len

/-- The digits at the head of a string, and the rest. -/
def digits (s : CString) : CString × CString :=
  (s.takeWhile fun c => 48 ≤ c && c ≤ 57, s.dropWhile fun c => 48 ≤ c && c ≤ 57)

/-- The value of a number that `%d` reads: clamped to a `long`, stored as an `int`. -/
def scanInt (neg : Bool) (ds : CString) : Int :=
  let v : Int := (ds.foldl (fun a c => 10 * a + (c.toNat - 48)) 0 : Nat)
  let l : Int := if neg then max (-v) (-2 ^ 63) else min v (2 ^ 63 - 1)
  Int.bmod l (2 ^ 32)

/-- `%d` of `sscanf`: blanks, a sign, digits. -/
def scanD (s : CString) : Option (Int × CString) :=
  let s := s.dropWhile fun c => c == 32 || (9 ≤ c && c ≤ 13)
  let (neg, s) := match s with
    | c :: rest => if c = 45 then (true, rest) else if c = 43 then (false, rest) else (false, c :: rest)
    | [] => (false, [])
  match digits s with
  | ([], _) => none
  | (ds, rest) => some (scanInt neg ds, rest)

/-- The numbers that `sscanf(s, "%d.%d.%d.%d", …)` stores when it returns `n`. -/
def scanDotted : Nat → CString → Option (List Int)
  | 0, _ => some []
  | 1, s => (scanD s).map fun r => [r.1]
  | n + 1, s =>
      match scanD s with
      | some (v, c :: rest) => if c = 46 then (scanDotted n rest).map (v :: ·) else none
      | _ => none

def shfsHostTypeName : UInt8 := 0x00
def shfsHostTypeIpv4 : UInt8 := 0x01

/-- `sizeof(struct shfs_host)`. -/
def sizeofHost : Nat := 33

/-- `hntoshfshost` for `SHFS_HOST_TYPE_NAME`, into the memory `out`; `none` is `-ENOSPC`. -/
def hntoshfshost (hn : CString) (hnLen : Nat) (out : Bytes) : Option Bytes :=
  let node := hn.take hnLen
  let octets := (scanDotted 4 node).filter fun ip => ip.all fun v => decide (0 < v ∧ v < 256)
  match octets with
  | some ip =>
      some fun i =>
        if i = 0 then shfsHostTypeIpv4
        else if i ≤ 4 then UInt8.ofNat (ip.getD (i - 1) 0).toNat
        else out i
  | none =>
      if 32 < hnLen then none
      else
        some fun i =>
          if i = 0 then shfsHostTypeName
          else if i ≤ hnLen then node.getD (i - 1) 0
          else if i = hnLen + 1 ∧ hnLen < 32 then 0
          else out i

/-- The text in front of the address of a supported URL. -/
def httpSchema : CString := [104, 116, 116, 112, 58]

/-- `sizeof(hentry->l_attr.rpath)`. -/
def sizeofRpath : Nat := 71

/-- The checks of `actn_addlink` on a URL that was parsed, in order. -/
def urlOk (path : CString) (u : HttpParserUrl) : Bool :=
  !(u.schema.set && httpSchema.take u.schema.len != part path u.schema) &&
    u.host.set &&
    !(u.fragment.set && 0 < u.fragment.len) &&
    !(u.userinfo.set && 0 < u.userinfo.len) &&
    !(u.path.set && sizeofRpath < u.path.len)

/-- The fields that `actn_addlink` writes. -/
def linkHentry (e : Hentry) (hlen : Nat) (fhash : Hash512) (rhost : Bytes) (u : HttpParserUrl)
    (now : Nat) (j : Token) : Hentry :=
  let e := hashCopy e fhash hlen
  let e := Bytes.putLe e 180 1 shfsEflagLink.toNat
  let e := Bytes.putLe e 98 2 ((u.port.getD 80).toNat)
  let e := Bytes.putLe e 171 1 j.optltype.code.toNat
  let e := Bytes.blit e 64 rhost sizeofHost
  let e :=
    if (u.path.set && 1 < u.path.len) || (u.query.set && 1 < u.query.len) then
      strncpy e 100 (j.path.drop (u.path.off + 1)) sizeofRpath
    else Bytes.putLe e 100 1 0
  let e := Bytes.putLe e 172 8 now
  let e := clearBytes e 181 64
  strncpy e 181 j.name 64

/-! ## What the rest of the development uses of an entry -/

section Fields

variable {e : Hentry} {hlen cchk fsize now : Nat} {fhash : Hash512} {j : Token} {rhost : Bytes}
  {u : HttpParserUrl} {i : Nat}

theorem strncpy_outside {off n : Nat} {src : CString} (h : i < off ∨ off + n ≤ i) :
    strncpy e off src n i = e i := by
  unfold strncpy
  rw [if_neg]
  omega

theorem clearBytes_outside {off n : Nat} (h : i < off ∨ off + n ≤ i) :
    clearBytes e off n i = e i := Bytes.blit_outside h

/-- A file entry below its mime type. -/
theorem fileHentry_low (h : i < 88) : fileHentry e hlen fhash cchk fsize now j i =
    Bytes.putLe (Bytes.putLe (Bytes.putLe (hashCopy e fhash hlen) 64 8 cchk) 72 8 0) 80 8 fsize i := by
  unfold fileHentry
  rw [strncpy_outside (by omega)]
  cases j.optstr0 with
  | none =>
      show clearBytes (clearBytes (clearBytes _ 88 32) 120 16) 181 64 i = _
      rw [clearBytes_outside (by omega), clearBytes_outside (by omega), clearBytes_outside (by omega),
        Bytes.putLe_outside (by omega), Bytes.putLe_outside (by omega)]
  | some mime =>
      show strncpy (clearBytes (clearBytes (clearBytes _ 88 32) 120 16) 181 64) 88 mime 32 i = _
      rw [strncpy_outside (by omega), clearBytes_outside (by omega), clearBytes_outside (by omega),
        clearBytes_outside (by omega), Bytes.putLe_outside (by omega), Bytes.putLe_outside (by omega)]

/-- The digest of a new file entry. -/
theorem fileHentry_hash (hl : hlen ≤ 64) :
    SameHash hlen (fileHentry e hlen fhash cchk fsize now j) fhash := by
  intro i hi
  rw [fileHentry_low (by omega), Bytes.putLe_outside (by omega), Bytes.putLe_outside (by omega),
    Bytes.putLe_outside (by omega)]
  exact hashCopy_same e fhash hlen i hi

/-- A new file entry has no flag. -/
theorem fileHentry_flags : (fileHentry e hlen fhash cchk fsize now j).flags = 0 := by
  unfold Hentry.flags fileHentry
  rw [strncpy_outside (by omega)]
  cases j.optstr0 with
  | none => rfl
  | some mime => rfl

/-- The container of a new file entry. -/
theorem fileHentry_container (hc : cchk < u64Size) (hf : fsize < u64Size) :
    (fileHentry e hlen fhash cchk fsize now j).chunk = cchk ∧
      (fileHentry e hlen fhash cchk fsize now j).offset = 0 ∧
      (fileHentry e hlen fhash cchk fsize now j).len = fsize := by
  have hlow : ∀ off, off + 8 ≤ 88 → Bytes.le (fileHentry e hlen fhash cchk fsize now j) off 8 =
      Bytes.le (Bytes.putLe (Bytes.putLe (Bytes.putLe (hashCopy e fhash hlen) 64 8 cchk) 72 8 0)
        80 8 fsize) off 8 := fun off hoff => Bytes.le_congr 8 fun i hi => fileHentry_low (by omega)
  have hsize : (256 : Nat) ^ 8 = u64Size := by decide
  refine ⟨?_, ?_, ?_⟩
  · show Bytes.le _ 64 8 = cchk
    rw [hlow 64 (by omega), Bytes.le_putLe_disjoint (by omega), Bytes.le_putLe_disjoint (by omega),
      Bytes.le_putLe, hsize, Nat.mod_eq_of_lt hc]
  · show Bytes.le _ 72 8 = 0
    rw [hlow 72 (by omega), Bytes.le_putLe_disjoint (by omega), Bytes.le_putLe]
    exact Nat.zero_mod _
  · show Bytes.le _ 80 8 = fsize
    rw [hlow 80 (by omega), Bytes.le_putLe, hsize, Nat.mod_eq_of_lt hf]

/-- The digest of a new link. -/
theorem linkHentry_hash (hl : hlen ≤ 64) :
    SameHash hlen (linkHentry e hlen fhash rhost u now j) fhash := by
  intro i hi
  unfold linkHentry
  rw [strncpy_outside (by omega), clearBytes_outside (by omega), Bytes.putLe_outside (by omega)]
  have hbase : Bytes.blit (Bytes.putLe (Bytes.putLe (Bytes.putLe (hashCopy e fhash hlen) 180 1
      shfsEflagLink.toNat) 98 2 (u.port.getD 80).toNat) 171 1 j.optltype.code.toNat) 64 rhost
      sizeofHost i = fhash i := by
    rw [Bytes.blit_outside (by omega), Bytes.putLe_outside (by omega), Bytes.putLe_outside (by omega),
      Bytes.putLe_outside (by omega)]
    exact hashCopy_same e fhash hlen i hi
  split
  · rw [strncpy_outside (by omega)]
    exact hbase
  · rw [Bytes.putLe_outside (by omega)]
    exact hbase

/-- A new link has the link flag only. -/
theorem linkHentry_flags : (linkHentry e hlen fhash rhost u now j).flags = shfsEflagLink := by
  unfold Hentry.flags linkHentry
  rw [strncpy_outside (by omega), clearBytes_outside (by omega), Bytes.putLe_outside (by omega)]
  split
  · rfl
  · rfl

/-- `hash_clear` on an entry keeps everything behind the digest. -/
theorem hashClear_behind (hl : hlen ≤ 64) (hi : 64 ≤ i) : hashClear e hlen i = e i := by
  unfold hashClear hashWordEnd
  rw [if_neg (by omega)]

end Fields

end Minipython.Tools.Admin
