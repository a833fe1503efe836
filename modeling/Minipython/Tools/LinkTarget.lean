/-
# Minipython.Tools.LinkTarget — what a link keeps of its URL (shfs_admin.c)

`actn_addlink` checks the fields of a URL one by one, and stores its path and query by one copy of the rest of
the string into the 71 bytes of `rpath`. The URL parser is not part of the repository: what it reports is
related to the text of the URL by `Reports`.

`KeepsTarget` compares the entry with the text of the URL: the schema, the port, and the path with its
query. `TargetFits` is the condition on the text alone. The port passes through, with 80 where the URL has
none, and the schema is compared over its own length. For the path the proof compares two copies: `strncpy`
from where the path begins, as far as 71 characters, and the path and query of the URL (`copy_iff`).

`Reports` states what the parser documents: each field that is present is where it is in the text, a field
that is absent has no length, the path begins with its slash and the query behind the first question mark.
The schema contains no colon.
-/
import Minipython.Tools.HostName
import Minipython.Tools.Containers

namespace Minipython.Tools.Admin

open Minipython.Lib
open Minipython.Shfs

/-! ## URLs -/

/-- The text of a URL: its schema and what else stands in front of the path, the path, the query, and what
follows them. -/
structure UrlText where
  front : CString
  schema : CString
  port : Option UInt16
  path : CString
  query : CString
  extra : CString

namespace UrlText

/-- The query behind its question mark. -/
def queryPart (w : UrlText) : CString := if w.query = [] then [] else 63 :: w.query

def text (w : UrlText) : CString := w.front ++ (w.path ++ (w.queryPart ++ w.extra))

/-- The path and query without the leading slash. -/
def target (w : UrlText) : CString := w.path.tail ++ w.queryPart

end UrlText

/-- How a field is reported: an empty one is not set. -/
def fieldAt (off : Nat) (t : CString) : UrlField := if t = [] then ⟨false, 0, 0⟩ else ⟨true, off, t.length⟩

/-- The parser reports the fields of a URL. The schema ends in front of a colon, a host stands in front of the
path, and the query behind the first question mark. -/
structure Reports (s : CString) (u : HttpParserUrl) (w : UrlText) : Prop where
  text : s = w.text
  noTerm : ∀ c ∈ s, c ≠ 0
  schema : part s u.schema = w.schema
  schemaLen : u.schema.len = w.schema.length
  schemaSet : u.schema.set = false → w.schema = []
  colon : (58 : UInt8) ∉ w.schema
  host : u.host.set = true → w.front ≠ []
  question : (63 : UInt8) ∉ w.front
  port : u.port = w.port
  path : u.path = fieldAt w.front.length w.path
  slash : ∀ c ∈ w.path.head?, c = 47
  query : u.query = fieldAt (w.front.length + w.path.length + 1) w.query

/-- `http`. -/
def httpName : CString := [104, 116, 116, 112]

/-- The entry of a link has the target of its URL. -/
def KeepsTarget (w : UrlText) (e : Hentry) : Prop :=
  (w.schema = [] ∨ w.schema = httpName) ∧ Bytes.le e 98 2 = (w.port.getD 80).toNat ∧
    readString e sizeofRpath 100 = w.target

/-- The schema is no proper prefix of `http`. If the path or the query is longer than one character, they fit
`rpath`, with nothing behind them that fits it too, and only one character stands in front of a query without
a path; otherwise there is no query. -/
def TargetFits (w : UrlText) : Prop :=
  w.schema ∉ [[104], [104, 116], [104, 116, 116]] ∧
    if 1 < w.path.length ∨ 1 < w.query.length then
      (w.path = [] → w.front.length = 1) ∧ w.target.length ≤ sizeofRpath ∧
        (w.extra = [] ∨ w.target.length = sizeofRpath)
    else w.query = []

instance (w : UrlText) : Decidable (TargetFits w) := inferInstanceAs (Decidable (_ ∧ ite _ _ _))

/-! ## The entry of a link -/

section Fields

variable {e : Hentry} {hlen now n off : Nat} {fhash : Hash512} {j : Token} {rhost : Bytes} {u : HttpParserUrl}

/-- A string depends on the bytes of its buffer only. -/
theorem readString_congr {b b' : Bytes} (h : ∀ i, off ≤ i → i < off + n → b i = b' i) :
    readString b n off = readString b' n off := by
  induction n generalizing off with
  | zero => rfl
  | succ n ih =>
      rw [readString, readString, h off le_rfl (by omega), ih fun i hi hn => h i (by omega) (by omega)]

/-- What `strncpy` has stored reads as the part of the string that fits. -/
theorem readString_strncpy {src : CString} (hsrc : ∀ c ∈ src, c ≠ 0) :
    readString (strncpy e off src n) n off = src.take n := by
  have hbyte : ∀ i < n, strncpy e off src n (off + i) = src.getD i 0 := fun i hi => by
    unfold strncpy
    rw [if_pos (by omega), Nat.add_sub_cancel_left]
  have hread : readString (strncpy e off src n) n off = (src.take n).take n := by
    refine readString_eq (fun c hc => hsrc c (List.mem_of_mem_take hc)) (fun i hi => ?_) fun hlt => ?_
    · rw [List.length_take] at hi
      rw [hbyte i (by omega), List.getD_eq_getElem?_getD, List.getD_eq_getElem?_getD,
        List.getElem?_take_of_lt (by omega)]
    · rw [List.length_take] at hlt ⊢
      rw [hbyte _ (by omega)]
      rw [List.getD_eq_getElem?_getD, List.getElem?_eq_none (by omega)]
      rfl
  rw [hread, List.take_take, min_self]

/-- The port of a new link. -/
theorem linkHentry_rport :
    Bytes.le (linkHentry e hlen fhash rhost u now j) 98 2 = (u.port.getD 80).toNat := by
  have hport : Bytes.le (linkHentry e hlen fhash rhost u now j) 98 2 =
      Bytes.le (Bytes.putLe (Bytes.putLe (hashCopy e fhash hlen) 180 1 shfsEflagLink.toNat) 98 2
        (u.port.getD 80).toNat) 98 2 := by
    refine Bytes.le_congr 2 fun i hi => ?_
    unfold linkHentry
    rw [strncpy_outside (by omega), clearBytes_outside (by omega), Bytes.putLe_outside (by omega)]
    have hbase : Bytes.blit (Bytes.putLe (Bytes.putLe (Bytes.putLe (hashCopy e fhash hlen) 180 1
        shfsEflagLink.toNat) 98 2 (u.port.getD 80).toNat) 171 1 j.optltype.code.toNat) 64 rhost
        sizeofHost (98 + i) = Bytes.putLe (Bytes.putLe (hashCopy e fhash hlen) 180 1
        shfsEflagLink.toNat) 98 2 (u.port.getD 80).toNat (98 + i) := by
      rw [Bytes.blit_outside (Or.inr (by unfold sizeofHost; omega)), Bytes.putLe_outside (by omega)]
    split
    · rw [strncpy_outside (by omega)]
      exact hbase
    · rw [Bytes.putLe_outside (by omega)]
      exact hbase
  rw [hport, Bytes.le_putLe]
  exact Nat.mod_eq_of_lt (u.port.getD 80).toNat_lt

/-- The path of a new link. -/
theorem linkHentry_rpath (hpath : ∀ c ∈ j.path, c ≠ 0) :
    readString (linkHentry e hlen fhash rhost u now j) sizeofRpath 100 =
      if (u.path.set && 1 < u.path.len) || (u.query.set && 1 < u.query.len) then
        (j.path.drop (u.path.off + 1)).take sizeofRpath
      else [] := by
  have hafter : ∀ b : Hentry, readString (strncpy (clearBytes (Bytes.putLe b 172 8 now) 181 64) 181 j.name 64)
      sizeofRpath 100 = readString b sizeofRpath 100 := fun b => by
    unfold sizeofRpath
    refine readString_congr fun i hi hn => ?_
    rw [strncpy_outside (by omega), clearBytes_outside (by omega), Bytes.putLe_outside (by omega)]
  unfold linkHentry
  dsimp only
  rw [hafter]
  split
  · exact readString_strncpy fun c hc => hpath c (List.mem_of_mem_drop hc)
  · exact if_pos rfl

end Fields

/-! ## The checks and the copy -/

section Url

variable {s : CString} {u : HttpParserUrl} {w : UrlText}

/-- A prefix of a list is the part in front of an appendix. -/
theorem take_append_eq_iff {n : Nat} {t x : CString} :
    (t ++ x).take n = t ↔ t.length ≤ n ∧ (x = [] ∨ t.length = n) := by
  constructor
  · intro h
    have hlen := congrArg List.length h
    rw [List.length_take, List.length_append] at hlen
    refine ⟨by omega, ?_⟩
    rcases Nat.eq_zero_or_pos x.length with hx | hx
    · exact Or.inl (List.length_eq_zero_iff.1 hx)
    · right
      omega
  · rintro ⟨hle, rfl | rfl⟩
    · rw [List.append_nil, List.take_of_length_le hle]
    · exact List.take_left

/-- The check of the schema lets its prefixes pass. -/
theorem schema_iff (hrep : Reports s u w) (hok : urlOk s u = true) :
    w.schema ∉ [[104], [104, 116], [104, 116, 116]] ↔ w.schema = [] ∨ w.schema = httpName := by
  have hpre : httpSchema.take w.schema.length = w.schema := by
    cases hset : u.schema.set with
    | false =>
        rw [hrep.schemaSet hset]
        rfl
    | true =>
        unfold urlOk at hok
        rw [hset, Bool.true_and, hrep.schema, hrep.schemaLen] at hok
        simp only [Bool.and_eq_true, Bool.not_eq_true', bne_eq_false_iff_eq] at hok
        exact hok.1.1.1.1
  constructor
  · intro hno
    have hlt : w.schema.length < 5 := by
      by_contra hge
      rw [List.take_of_length_le (not_lt.1 hge)] at hpre
      exact hrep.colon (hpre ▸ by decide)
    generalize hn : w.schema.length = n at hpre hlt
    rw [← hpre] at hno ⊢
    match n, hlt with
    | 0, _ => exact Or.inl rfl
    | 1, _ => exact absurd (by decide) hno
    | 2, _ => exact absurd (by decide) hno
    | 3, _ => exact absurd (by decide) hno
    | 4, _ => exact Or.inr rfl
  · rintro (h | h) <;> rw [h] <;> decide

theorem fieldAt_long {off : Nat} {t : CString} :
    ((fieldAt off t).set && 1 < (fieldAt off t).len) = decide (1 < t.length) := by
  unfold fieldAt
  split
  · rename_i ht
    rw [ht]
    rfl
  · exact Bool.true_and _

/-- The copy is the target exactly if it begins at the right place and ends in time. -/
theorem copy_iff (hrep : Reports s u w) (hfront : w.front ≠ [])
    (hlong : 1 < w.path.length ∨ 1 < w.query.length) :
    (s.drop (u.path.off + 1)).take sizeofRpath = w.target ↔
      (w.path = [] → w.front.length = 1) ∧ w.target.length ≤ sizeofRpath ∧
        (w.extra = [] ∨ w.target.length = sizeofRpath) := by
  rw [← take_append_eq_iff, hrep.text, hrep.path]
  unfold UrlText.text
  cases hpath : w.path with
  | cons c path =>
      have hdrop : (w.front ++ (c :: path ++ (w.queryPart ++ w.extra))).drop
          ((fieldAt w.front.length (c :: path)).off + 1) = w.target ++ w.extra := by
        show (w.front ++ (c :: path ++ (w.queryPart ++ w.extra))).drop (w.front.length + 1) = _
        rw [← List.drop_drop, List.drop_left]
        unfold UrlText.target
        rw [hpath, List.append_assoc]
        rfl
      rw [hdrop]
      exact ⟨fun h => ⟨(fun hnil => by cases hnil), h⟩, fun h => h.2⟩
  | nil =>
      rw [hpath] at hlong
      have hlong : 1 < w.query.length := hlong.resolve_left (by simp)
      have hquery : w.queryPart = 63 :: w.query := by
        unfold UrlText.queryPart
        rw [if_neg (List.ne_nil_of_length_pos (by omega))]
      have htarget : w.target = w.queryPart := by
        unfold UrlText.target
        rw [hpath]
        rfl
      rw [htarget]
      -- without a path the copy begins at the second character of the URL
      cases hf : w.front with
      | nil => exact absurd hf hfront
      | cons c front =>
          show ((front ++ (w.queryPart ++ w.extra)).take sizeofRpath = _) ↔ _
          cases front with
          | nil => exact ⟨fun h => ⟨fun _ => rfl, h⟩, fun h => h.2⟩
          | cons d front =>
              refine iff_of_false (fun h => ?_) fun h => absurd (h.1 rfl) (by simp)
              -- it is no question mark
              have hhead := congrArg List.head? h
              rw [hquery] at hhead
              have hd : d = 63 := Option.some.inj hhead
              refine hrep.question ?_
              rw [hf, ← hd]
              exact List.mem_cons_of_mem c List.mem_cons_self

/-- The path is stored as it should be. -/
theorem rpath_iff {e : Hentry} {hlen now : Nat} {fhash : Hash512} {j : Token} {rhost : Bytes}
    (hrep : Reports j.path u w) (hok : urlOk j.path u = true) :
    readString (linkHentry e hlen fhash rhost u now j) sizeofRpath 100 = w.target ↔
      if 1 < w.path.length ∨ 1 < w.query.length then
        (w.path = [] → w.front.length = 1) ∧ w.target.length ≤ sizeofRpath ∧
          (w.extra = [] ∨ w.target.length = sizeofRpath)
      else w.query = [] := by
  have hhost : u.host.set = true := by
    unfold urlOk at hok
    simp only [Bool.and_eq_true] at hok
    exact hok.1.1.1.2
  have hcond : ((u.path.set && 1 < u.path.len) || (u.query.set && 1 < u.query.len)) =
      decide (1 < w.path.length ∨ 1 < w.query.length) := by
    rw [hrep.path, hrep.query, fieldAt_long, fieldAt_long, Bool.decide_or]
  rw [linkHentry_rpath hrep.noTerm, hcond]
  simp only [decide_eq_true_eq]
  split
  · rename_i hlong
    exact copy_iff hrep (hrep.host hhost) hlong
  · rename_i hshort
    have htail : w.path.tail = [] := by
      apply List.length_eq_zero_iff.1
      rw [List.length_tail]
      omega
    unfold UrlText.target UrlText.queryPart
    rw [htail, List.nil_append]
    constructor
    · intro h
      by_contra hquery
      rw [if_neg hquery] at h
      cases h
    · intro h
      rw [if_pos h]

/-- What a new link keeps. -/
theorem linkHentry_keeps {e : Hentry} {hlen now : Nat} {fhash : Hash512} {j : Token} {rhost : Bytes}
    (hrep : Reports j.path u w) (hok : urlOk j.path u = true) :
    KeepsTarget w (linkHentry e hlen fhash rhost u now j) ↔ TargetFits w := by
  have hport : Bytes.le (linkHentry e hlen fhash rhost u now j) 98 2 = (w.port.getD 80).toNat := by
    rw [linkHentry_rport, hrep.port]
  unfold KeepsTarget TargetFits
  rw [schema_iff hrep hok, rpath_iff hrep hok]
  exact ⟨fun ⟨hs, _, hp⟩ => ⟨hs, hp⟩, fun ⟨hs, hp⟩ => ⟨hs, hport, hp⟩⟩

theorem KeepsTarget.congr {e e' : Hentry} (h : SameHentry e e') : KeepsTarget w e ↔ KeepsTarget w e' := by
  have hsize : sizeofHentry = 245 := rfl
  have hport : Bytes.le e 98 2 = Bytes.le e' 98 2 := Bytes.le_congr 2 fun i hi => h _ (by omega)
  have hpath : readString e sizeofRpath 100 = readString e' sizeofRpath 100 := by
    unfold sizeofRpath
    exact readString_congr fun i hi hn => h i (by omega)
  unfold KeepsTarget
  rw [hport, hpath]

end Url

/-! ## `actn_addlink` -/

section AddLink

variable {V : Volume} {lib : MhashLib} {j : Token} {env : LinkEnv} {s s' : Session} {u : HttpParserUrl}
  {w : UrlText}

/-- The digest of a link is computed, or else the action fails with -1. -/
theorem linkDigest_error {ret : Int} (h : linkDigest V lib j env = .ok (.error ret)) : ret = -1 := by
  have hinj : ∀ {x : Int}, (Except.ok (Except.error x) : Except Stop (Except Int Hash512)) =
      .ok (.error ret) → ret = x := fun he => (Except.error.inj (Except.ok.inj he)).symm
  unfold linkDigest at h
  split at h
  · split at h
    · cases h
    · split at h
      · exact hinj h
      · cases h
  · cases hdigest : j.optstr2 with
    | none =>
        rw [hdigest] at h
        exact hinj h
    | some digest =>
        rw [hdigest] at h
        simp only at h
        split at h
        · exact hinj h
        · cases h

/-- A link that is added has passed the checks, and its entry is in a new slot. -/
theorem addlink_success (hurl : env.url = some u) (h : actnAddlink V lib j env s = .ok (0, s')) :
    urlOk j.path u = true ∧ ∃ fhash el bt rhost, linkDigest V lib j env = .ok (.ok fhash) ∧
      shfsBtableAddentry s.vol.bt fhash = .ok (some el, bt) ∧
      s'.vol = addHentry { s.vol with bt := bt } el fun e =>
        linkHentry e V.hlen fhash rhost u env.timestamp j := by
  unfold actnAddlink at h
  rw [hurl] at h
  simp only at h
  split at h
  · cases h
  rename_i hok
  cases hhost : hntoshfshost (j.path.drop u.host.off) u.host.len env.stack with
  | none =>
      rw [hhost] at h
      cases h
  | some rhost =>
      rw [hhost] at h
      obtain ⟨x, hx, h⟩ := ok_of_bind h
      cases x with
      | error ret =>
          have hret := (Prod.mk.inj (Except.ok.inj h)).1
          rw [linkDigest_error hx] at hret
          exact absurd hret (by decide)
      | ok fhash =>
          change insertLink V j env u rhost fhash s = .ok (0, s') at h
          unfold insertLink at h
          split at h
          · cases h
          obtain ⟨⟨res, bt⟩, hadd, h⟩ := ok_of_bind h
          cases res with
          | none => cases h
          | some el =>
              refine ⟨by simpa using hok, fhash, el, bt, rhost, hx, lift_ok hadd, ?_⟩
              exact congrArg Session.vol (Prod.mk.inj (Except.ok.inj h)).2.symm

theorem addlink_keeps (hurl : env.url = some u) (hrep : Reports j.path u w)
    (h : actnAddlink V lib j env s = .ok (0, s')) :
    ∃ fhash el, linkDigest V lib j env = .ok (.ok fhash) ∧
      shfsBtableAddentry s.vol.bt fhash = .ok (some el, s'.vol.bt) ∧
      (KeepsTarget w (s'.vol.hentry el) ↔ TargetFits w) := by
  obtain ⟨hok, fhash, el, bt, rhost, hdig, hadd, hvol⟩ := addlink_success hurl h
  have hentry : SameHentry (s'.vol.hentry el)
      (linkHentry (s.vol.hentry el) V.hlen fhash rhost u env.timestamp j) := by
    rw [hvol]
    exact addHentry_self
  refine ⟨fhash, el, hdig, ?_, ?_⟩
  · rw [hvol]
    exact hadd
  · rw [KeepsTarget.congr hentry]
    exact linkHentry_keeps hrep hok

/-- A link that is added keeps the target of its URL exactly if its schema is no proper prefix of `http`,
and its path and query are long enough to be copied, begin where the copy does, and fill it or end the URL.
The URL parser is a parameter that reports the fields of the text as they are (`Reports`). The entry that is
looked at is the one that the action has put into the table. -/
theorem link_target (hurl : env.url = some u) (hrep : Reports j.path u w)
    (h : actnAddlink V lib j env s = .ok (0, s')) :
    ∃ fhash el, linkDigest V lib j env = .ok (.ok fhash) ∧
      shfsBtableAddentry s.vol.bt fhash = .ok (some el, s'.vol.bt) ∧
      (KeepsTarget w (s'.vol.hentry el) ↔ TargetFits w) :=
  addlink_keeps hurl hrep h

end AddLink

/-- `add-lnk` of a URL with the digest 1, on a new volume. -/
def linkToken (path : CString) : Token := { plainToken path with optstr2 := some [48, 49] }

def linkEnv (u : HttpParserUrl) : LinkEnv := ⟨some u, Bytes.zeros, true, 0⟩

def addsLink (path : CString) (u : HttpParserUrl) : Bool :=
  match mountShfs manualVolume plainMount fun _ _ => 0 with
  | .error _ => false
  | .ok v =>
      match actnAddlink manualVolume onesLib (linkToken path) (linkEnv u) ⟨v, fun _ _ => 0, false⟩ with
      | .ok (0, _) => true
      | _ => false

theorem addsLink_spec {path : CString} {u : HttpParserUrl} (h : addsLink path u = true) :
    ∃ s s', mountShfs manualVolume plainMount (fun _ _ => 0) = .ok s.vol ∧
      actnAddlink manualVolume onesLib (linkToken path) (linkEnv u) s = .ok (0, s') := by
  unfold addsLink at h
  split at h
  · cases h
  rename_i v hmount
  split at h
  · rename_i s' hadd
    exact ⟨⟨v, fun _ _ => 0, false⟩, s', hmount, hadd⟩
  · cases h

/-- `http://h?ab`. -/
def queryUrl : UrlText := ⟨[104, 116, 116, 112, 58, 47, 47, 104], httpName, none, [], [97, 98], []⟩

def queryFields : HttpParserUrl :=
  ⟨⟨true, 0, 4⟩, ⟨true, 7, 1⟩, none, ⟨false, 0, 0⟩, ⟨true, 9, 2⟩, ⟨false, 0, 0⟩, ⟨false, 0, 0⟩⟩

theorem reports_queryUrl : Reports queryUrl.text queryFields queryUrl where
  text := rfl
  noTerm := by decide
  schema := by decide
  schemaLen := by decide
  schemaSet := by decide
  colon := by decide
  host := by decide
  question := by decide
  port := rfl
  path := by decide
  slash := nofun
  query := by decide

/-- A query without a path: the link leads to `ttp://h?ab`. -/
theorem link_target_query : ∃ s s' fhash el, mountShfs manualVolume plainMount (fun _ _ => 0) = .ok s.vol ∧
    actnAddlink manualVolume onesLib (linkToken queryUrl.text) (linkEnv queryFields) s = .ok (0, s') ∧
    linkDigest manualVolume onesLib (linkToken queryUrl.text) (linkEnv queryFields) = .ok (.ok fhash) ∧
    shfsBtableAddentry s.vol.bt fhash = .ok (some el, s'.vol.bt) ∧
    ¬KeepsTarget queryUrl (s'.vol.hentry el) := by
  have hadds : addsLink queryUrl.text queryFields = true := by decide +kernel
  obtain ⟨s, s', hmount, hadd⟩ := addsLink_spec hadds
  obtain ⟨fhash, el, hdig, hslot, hiff⟩ := addlink_keeps rfl reports_queryUrl hadd
  exact ⟨s, s', fhash, el, hmount, hadd, hdig, hslot, mt hiff.1 (by decide)⟩

/-- `http://h/a?b`. -/
def pathUrl : UrlText := ⟨[104, 116, 116, 112, 58, 47, 47, 104], httpName, none, [47, 97], [98], []⟩

def pathFields : HttpParserUrl :=
  ⟨⟨true, 0, 4⟩, ⟨true, 7, 1⟩, none, ⟨true, 8, 2⟩, ⟨true, 11, 1⟩, ⟨false, 0, 0⟩, ⟨false, 0, 0⟩⟩

theorem reports_pathUrl : Reports pathUrl.text pathFields pathUrl where
  text := rfl
  noTerm := by decide
  schema := by decide
  schemaLen := by decide
  schemaSet := by decide
  colon := by decide
  host := by decide
  question := by decide
  port := rfl
  path := by decide
  slash := fun _ h => (Option.mem_some_iff.1 h).symm
  query := by decide

/-- A path with a query is kept. -/
theorem link_target_path : ∃ s s' fhash el, mountShfs manualVolume plainMount (fun _ _ => 0) = .ok s.vol ∧
    actnAddlink manualVolume onesLib (linkToken pathUrl.text) (linkEnv pathFields) s = .ok (0, s') ∧
    shfsBtableAddentry s.vol.bt fhash = .ok (some el, s'.vol.bt) ∧
    KeepsTarget pathUrl (s'.vol.hentry el) := by
  have hadds : addsLink pathUrl.text pathFields = true := by decide +kernel
  obtain ⟨s, s', hmount, hadd⟩ := addsLink_spec hadds
  obtain ⟨fhash, el, -, hslot, hiff⟩ := link_target rfl reports_pathUrl hadd
  exact ⟨s, s', fhash, el, hmount, hadd, hslot, hiff.2 (by decide)⟩

end Minipython.Tools.Admin
