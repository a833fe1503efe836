/-
# Minipython.Tools.HostName — host names as they are stored and printed (shfs_admin.c, tools_common.c)

`hntoshfshost` stores a host as four octets if `sscanf` reads four numbers from 1 to 255 off the front of its
name, and as a name otherwise, in 32 bytes without a terminator if it is that long. `strshfshost` prints
either kind. It takes the size of the stored name for the size of the buffer, which leaves 31 characters.

`HostOk` is what survival means: the record has the type that the name asks for, and prints as the same
name, or for a quad as one with the same octets. `HostFits` is the condition on the name alone. The way from
one to the other is `scanInt`, the scan for one number as `sscanf` does it: leading spaces, a sign, digits,
and nothing about what follows. So a name that goes on behind a quad without a zero octet is stored as that
quad and loses the rest.

The names are those that `hntoshfshost` accepts, in memory that goes on behind them. The buffer that is
printed to has the size of the record.
-/
import Minipython.Tools.Entry

namespace Minipython.Tools.Admin

open Minipython.Lib

/-! ## Printing a host -/

/-- The string at an offset of memory, read up to `n` characters. -/
def readString (b : Bytes) : Nat → Nat → CString
  | 0, _ => []
  | n + 1, off => if b off = 0 then [] else b off :: readString b n (off + 1)

/-- A number of 8 bits, as `%PRIu8` prints it. -/
def octetText (v : UInt8) : CString :=
  if v < 10 then [48 + v]
  else if v < 100 then [48 + v / 10, 48 + v % 10]
  else [48 + v / 100, 48 + v / 10 % 10, 48 + v % 10]

/-- The string that `strshfshost` leaves in a buffer of `slen` bytes. -/
def strshfshost (slen : Nat) (h : Bytes) : CString :=
  if h 0 = shfsHostTypeName then
    -- `sizeof(h->name)` bounds what is printed, the terminator included
    let l := min slen 32
    readString h (l - 1) 1
  else if h 0 = shfsHostTypeIpv4 then
    (octetText (h 1) ++ 46 :: (octetText (h 2) ++ 46 :: (octetText (h 3) ++ 46 :: octetText (h 4)))).take
      (slen - 1)
  else []

/-! ## What should survive -/

/-- A decimal digit. -/
def isDigit (c : UInt8) : Bool := 48 ≤ c && c ≤ 57

/-- The value of digits. -/
def digitsValue (ds : CString) : Nat := ds.foldl (fun a c => 10 * a + (c.toNat - 48)) 0

/-- An octet: some digits that stand for at most 255. -/
def Octet (ds : CString) (v : Nat) : Prop :=
  ds ≠ [] ∧ (∀ c ∈ ds, isDigit c = true) ∧ digitsValue ds = v ∧ v ≤ 255

/-- The whole string is a dotted quad. -/
def Quad (s : CString) (v : List Nat) : Prop :=
  ∃ a b c d x y z w, s = a ++ 46 :: (b ++ 46 :: (c ++ 46 :: d)) ∧ v = [x, y, z, w] ∧
    Octet a x ∧ Octet b y ∧ Octet c z ∧ Octet d w

/-- Two names are equal up to leading zeros of octets. -/
def SameName (s t : CString) : Prop := s = t ∨ ∃ v, Quad s v ∧ Quad t v

/-- The stored host is of the right type, and prints as it was. -/
def HostOk (s : CString) (h : Bytes) : Prop :=
  (h 0 = shfsHostTypeIpv4 ↔ ∃ v, Quad s v) ∧ SameName s (strshfshost sizeofHost h)

/-- The octets that `hntoshfshost` finds at the front of a name. -/
def hostOctets (s : CString) : Option (List Int) :=
  (scanDotted 4 s).filter fun ip => ip.all fun v => decide (0 < v ∧ v < 256)

/-- The name is a dotted quad without a zero octet; or it is none, nor begins with what `sscanf` takes for
one, and is shorter than the field that it is stored in. -/
def HostFits (s : CString) : Prop :=
  (∃ v, Quad s v ∧ ∀ x ∈ v, 0 < x) ∨
    ((¬∃ v, Quad s v) ∧ hostOctets s = none ∧ s.length ≤ 31)

/-! ## Reading octets -/

theorem takeWhile_digits {a rest : CString} (ha : ∀ c ∈ a, isDigit c = true)
    (hrest : ∀ c ∈ rest.head?, isDigit c = false) :
    (a ++ rest).takeWhile isDigit = a ∧ (a ++ rest).dropWhile isDigit = rest := by
  rw [List.takeWhile_append_of_pos ha, List.dropWhile_append_of_pos ha]
  cases rest with
  | nil => exact ⟨List.append_nil a, rfl⟩
  | cons c rest =>
      have hc := hrest c rfl
      rw [List.takeWhile_cons_of_neg (by rw [hc]; decide), List.dropWhile_cons_of_neg (by rw [hc]; decide)]
      exact ⟨List.append_nil a, rfl⟩

/-- Digits are neither blanks nor signs nor terminators. -/
theorem digit_range {c : UInt8} (h : isDigit c = true) : 48 ≤ c.toNat ∧ c.toNat ≤ 57 := by
  simp only [isDigit, Bool.and_eq_true, decide_eq_true_eq, UInt8.le_iff_toNat_le] at h
  exact h

theorem digit_plain {c : UInt8} (h : isDigit c = true) :
    (c == 32 || (9 ≤ c && c ≤ 13)) = false ∧ c ≠ 45 ∧ c ≠ 43 ∧ c ≠ 0 := by
  have hrange := digit_range h
  have hne : ∀ n : UInt8, n.toNat < 48 → c ≠ n := fun n hn he => by
    rw [he] at hrange
    omega
  refine ⟨?_, hne 45 (by decide), hne 43 (by decide), hne 0 (by decide)⟩
  have hle : ¬c ≤ 13 := fun hle => by
    have hle : c.toNat ≤ 13 := UInt8.le_iff_toNat_le.1 hle
    omega
  rw [Bool.or_eq_false_iff, Bool.and_eq_false_iff]
  exact ⟨beq_eq_false_iff_ne.2 (hne 32 (by decide)), Or.inr (decide_eq_false hle)⟩

theorem scanInt_small {ds : CString} {v : Nat} (h : digitsValue ds = v) (hv : v ≤ 255) :
    scanInt false ds = v := by
  unfold digitsValue at h
  unfold scanInt
  rw [h]
  dsimp only
  rw [if_neg Bool.false_ne_true, min_eq_left (by omega)]
  exact Int.bmod_eq_of_le (by omega) (by omega)

/-- `%d` reads an octet, whatever stands behind it. -/
theorem scanD_octet {a rest : CString} {v : Nat} (h : Octet a v)
    (hrest : ∀ c ∈ rest.head?, isDigit c = false) : scanD (a ++ rest) = some ((v : Int), rest) := by
  obtain ⟨hne, hdig, hval, hle⟩ := h
  obtain ⟨htake, hdrop⟩ := takeWhile_digits hdig hrest
  cases a with
  | nil => exact absurd rfl hne
  | cons c a =>
      obtain ⟨hblank, hminus, hplus, -⟩ := digit_plain (hdig c List.mem_cons_self)
      have hdigits : digits (c :: (a ++ rest)) = (c :: a, rest) := Prod.ext htake hdrop
      unfold scanD
      rw [List.cons_append, List.dropWhile_cons_of_neg (by rw [hblank]; decide)]
      dsimp only
      rw [if_neg hminus, if_neg hplus]
      dsimp only
      rw [hdigits]
      exact congrArg (fun z => some (z, rest)) (scanInt_small hval hle)

theorem dot_not_digit (s : CString) : ∀ c ∈ (46 :: s : CString).head?, isDigit c = false := by
  intro c hc
  obtain rfl := Option.some.inj hc
  rfl

/-- `sscanf` reads the octets of a quad. -/
theorem scanDotted_quad {s : CString} {v : List Nat} (h : Quad s v) :
    scanDotted 4 s = some (v.map Int.ofNat) := by
  obtain ⟨a, b, c, d, x, y, z, w, rfl, rfl, ha, hb, hc, hd⟩ := h
  have hend := @scanD_octet d [] w hd fun c hc => by cases hc
  rw [List.append_nil] at hend
  simp only [scanDotted, scanD_octet ha (dot_not_digit _), scanD_octet hb (dot_not_digit _),
    scanD_octet hc (dot_not_digit _), hend, if_true, Option.map_some]
  rfl

/-- A quad has one list of octets only. -/
theorem quad_unique {s : CString} {v w : List Nat} (hv : Quad s v) (hw : Quad s w) : v = w := by
  have h := (scanDotted_quad hv).symm.trans (scanDotted_quad hw)
  exact List.map_injective_iff.2 (fun _ _ h => Int.ofNat.inj h) (Option.some.inj h)

/-- What `hntoshfshost` makes of a quad. -/
theorem hostOctets_quad {s : CString} {v : List Nat} (h : Quad s v) :
    hostOctets s = if ∀ x ∈ v, 0 < x then some (v.map Int.ofNat) else none := by
  have hle : ∀ x ∈ v, x ≤ 255 := by
    obtain ⟨a, b, c, d, x, y, z, w, -, rfl, ha, hb, hc, hd⟩ := h
    intro u hu
    simp only [List.mem_cons, List.not_mem_nil, or_false] at hu
    rcases hu with rfl | rfl | rfl | rfl
    · exact ha.2.2.2
    · exact hb.2.2.2
    · exact hc.2.2.2
    · exact hd.2.2.2
  have hall : ((v.map Int.ofNat).all fun x => decide (0 < x ∧ x < 256)) = true ↔ ∀ x ∈ v, 0 < x := by
    rw [List.all_eq_true]
    constructor
    · intro hx x hmem
      have hone := of_decide_eq_true (hx _ (List.mem_map_of_mem hmem))
      exact Int.ofNat_lt.1 hone.1
    · intro hx x hmem
      obtain ⟨u, hu, rfl⟩ := List.mem_map.1 hmem
      have h0 := hx u hu
      have h1 := hle u hu
      refine decide_eq_true ⟨Int.ofNat_lt.2 h0, ?_⟩
      show (u : Int) < 256
      omega
  rw [hostOctets, scanDotted_quad h, Option.filter_some]
  by_cases hpos : ∀ x ∈ v, 0 < x
  · rw [if_pos hpos, if_pos (hall.2 hpos)]
  · rw [if_neg hpos, if_neg (mt hall.1 hpos)]

/-! ## Printing what was stored -/

theorem octetText_spec (v : UInt8) : Octet (octetText v) v.toNat := by
  have hall : ∀ n < 256, octetText (UInt8.ofNat n) ≠ [] ∧
      (∀ c ∈ octetText (UInt8.ofNat n), isDigit c = true) ∧ digitsValue (octetText (UInt8.ofNat n)) = n ∧
        (octetText (UInt8.ofNat n)).length ≤ 3 := by decide +kernel
  have hlt := v.toNat_lt
  obtain ⟨h1, h2, h3, -⟩ := hall v.toNat hlt
  rw [UInt8.ofNat_toNat] at h1 h2 h3
  exact ⟨h1, h2, h3, by omega⟩

theorem octetText_length (v : UInt8) : (octetText v).length ≤ 3 := by
  unfold octetText
  split
  · exact Nat.le_of_ble_eq_true rfl
  · split
    · exact Nat.le_of_ble_eq_true rfl
    · exact Nat.le_refl 3

/-- An address is printed whole, as the quad of its octets. -/
theorem strshfshost_ipv4 {h : Bytes} (hty : h 0 = shfsHostTypeIpv4) :
    Quad (strshfshost sizeofHost h) [(h 1).toNat, (h 2).toNat, (h 3).toNat, (h 4).toNat] := by
  have h1 := octetText_length (h 1)
  have h2 := octetText_length (h 2)
  have h3 := octetText_length (h 3)
  have h4 := octetText_length (h 4)
  have hne : h 0 ≠ shfsHostTypeName := by
    rw [hty]
    decide
  rw [strshfshost, if_neg hne, if_pos hty, List.take_of_length_le]
  · exact ⟨_, _, _, _, _, _, _, _, rfl, rfl, octetText_spec _, octetText_spec _, octetText_spec _,
      octetText_spec _⟩
  · simp only [List.length_append, List.length_cons, sizeofHost]
    omega

/-- The quad that was stored is printed. -/
theorem strshfshost_quad {s : CString} {v : List Nat} {h : Bytes} (hv : Quad s v)
    (hty : h 0 = shfsHostTypeIpv4) (hoct : ∀ i < 4, h (i + 1) = UInt8.ofNat (v.getD i 0)) :
    Quad (strshfshost sizeofHost h) v := by
  have hprint := strshfshost_ipv4 hty
  have hbyte : ∀ {u : Nat}, u ≤ 255 → (UInt8.ofNat u).toNat = u := fun hu => by
    rw [UInt8.toNat_ofNat', Nat.mod_eq_of_lt (by omega)]
  obtain ⟨a, b, c, d, x, y, z, w, -, rfl, ha, hb, hc, hd⟩ := hv
  have h1 : h 1 = UInt8.ofNat x := hoct 0 (by decide)
  have h2 : h 2 = UInt8.ofNat y := hoct 1 (by decide)
  have h3 : h 3 = UInt8.ofNat z := hoct 2 (by decide)
  have h4 : h 4 = UInt8.ofNat w := hoct 3 (by decide)
  rwa [h1, h2, h3, h4, hbyte ha.2.2.2, hbyte hb.2.2.2, hbyte hc.2.2.2, hbyte hd.2.2.2] at hprint

/-- A string without terminators is read back up to the given length. -/
theorem readString_eq {b : Bytes} {s : CString} {n off : Nat} (hs : ∀ c ∈ s, c ≠ 0)
    (hb : ∀ i < s.length, b (off + i) = s.getD i 0) (hend : s.length < n → b (off + s.length) = 0) :
    readString b n off = s.take n := by
  induction n generalizing s off with
  | zero => rfl
  | succ n ih =>
      rw [readString]
      cases s with
      | nil => exact if_pos (hend (Nat.succ_pos n))
      | cons c s =>
          have hc : b off = c := hb 0 (Nat.succ_pos _)
          rw [hc, if_neg (hs c List.mem_cons_self), List.take_succ_cons]
          congr 1
          refine ih (fun d hd => hs d (List.mem_cons_of_mem c hd)) (fun i hi => ?_) fun hlt => ?_
          · have hnext := hb (i + 1) (Nat.succ_lt_succ hi)
            rw [Nat.add_right_comm]
            exact hnext
          · rw [Nat.add_right_comm]
            exact hend (Nat.succ_lt_succ hlt)

/-! ## The round trip -/

theorem hostOk_iff {s rest : CString} {out h : Bytes} (hs : ∀ c ∈ s, c ≠ 0)
    (hacc : hntoshfshost (s ++ rest) s.length out = some h) : HostOk s h ↔ HostFits s := by
  have hnode : (s ++ rest).take s.length = s := List.take_left
  have hne : shfsHostTypeName ≠ shfsHostTypeIpv4 := by decide
  unfold hntoshfshost at hacc
  dsimp only at hacc
  rw [hnode] at hacc
  have hoct : (scanDotted 4 s).filter (fun ip => ip.all fun v => decide (0 < v ∧ v < 256)) =
      hostOctets s := rfl
  rw [hoct] at hacc
  cases ho : hostOctets s with
  | some ip =>
      rw [ho] at hacc
      obtain rfl := Option.some.inj hacc
      constructor
      · rintro ⟨htype, -⟩
        obtain ⟨v, hv⟩ := htype.1 rfl
        refine Or.inl ⟨v, hv, ?_⟩
        have hspec := hostOctets_quad hv
        by_contra hzero
        rw [if_neg hzero, ho] at hspec
        cases hspec
      · rintro (⟨v, hv, hpos⟩ | ⟨-, hnone, -⟩)
        · refine ⟨iff_of_true rfl ⟨v, hv⟩, Or.inr ⟨v, hv, ?_⟩⟩
          -- the octets that were read are those of the quad
          have hspec := hostOctets_quad hv
          rw [if_pos hpos, ho] at hspec
          obtain rfl := Option.some.inj hspec
          refine strshfshost_quad hv rfl fun i hi => ?_
          have hget : ((v.map Int.ofNat).getD i 0).toNat = v.getD i 0 := by
            simp only [List.getD_eq_getElem?_getD, List.getElem?_map]
            cases v[i]? <;> rfl
          show (if i + 1 = 0 then _ else if i + 1 ≤ 4 then _ else out (i + 1)) = _
          rw [if_neg (Nat.succ_ne_zero i), if_pos (by omega), Nat.add_sub_cancel, hget]
        · rw [ho] at hnone
          cases hnone
  | none =>
      rw [ho] at hacc
      dsimp only at hacc
      split at hacc
      · cases hacc
      rename_i hlen
      obtain rfl := Option.some.inj hacc
      have hread : strshfshost sizeofHost (fun i =>
          if i = 0 then shfsHostTypeName
          else if i ≤ s.length then s.getD (i - 1) 0
          else if i = s.length + 1 ∧ s.length < 32 then 0
          else out i) = s.take 31 := by
        refine (if_pos rfl).trans (readString_eq hs (fun i hi => ?_) fun hlt => ?_)
        · rw [if_neg (by omega), if_pos (by omega), Nat.add_sub_cancel_left]
        · rw [if_neg (by omega), if_neg (by omega), if_pos (by omega)]
      unfold HostOk
      rw [hread]
      constructor
      · rintro ⟨htype, hsame⟩
        have hno : ¬∃ v, Quad s v := fun hq => hne (htype.2 hq)
        refine Or.inr ⟨hno, ho, ?_⟩
        rcases hsame with he | ⟨v, hv, -⟩
        · have hl := congrArg List.length he
          rw [List.length_take] at hl
          omega
        · exact absurd ⟨v, hv⟩ hno
      · rintro (⟨v, hv, hpos⟩ | ⟨hno, -, hle⟩)
        · have hspec := hostOctets_quad hv
          rw [if_pos hpos, ho] at hspec
          cases hspec
        · exact ⟨iff_of_false hne hno, Or.inl (List.take_of_length_le hle).symm⟩

/-- A host name that is accepted survives storage exactly if it is a dotted quad without a zero octet, or
does not look like a quad to `sscanf` and has at most 31 characters. Survival is: it is stored as an address
exactly if it is a dotted quad, and prints as the same name or as a quad with the same octets. -/
theorem hostName_survives {s rest : CString} {out h : Bytes} (hs : ∀ c ∈ s, c ≠ 0)
    (hacc : hntoshfshost (s ++ rest) s.length out = some h) : HostOk s h ↔ HostFits s :=
  hostOk_iff hs hacc

instance (ds : CString) (v : Nat) : Decidable (Octet ds v) :=
  inferInstanceAs (Decidable (_ ∧ _ ∧ _ ∧ _))

/-- `10.0.0.1`. -/
def tenNet : CString := [49, 48, 46, 48, 46, 48, 46, 49]

theorem quad_tenNet : Quad tenNet [10, 0, 0, 1] :=
  ⟨[49, 48], [48], [48], [49], 10, 0, 0, 1, rfl, rfl, by decide, by decide, by decide, by decide⟩

/-- A quad with a zero octet is stored as a name. -/
theorem hostName_zero_octet :
    ∃ h, hntoshfshost tenNet 8 Bytes.zeros = some h ∧ ¬HostOk tenNet h := by
  refine ⟨_, rfl, fun hok => ?_⟩
  have htype := hok.1.2 ⟨_, quad_tenNet⟩
  exact absurd htype (by decide)

/-- `10.1.1.1`, and a name of 32 characters. -/
def fullQuad : CString := [49, 48, 46, 49, 46, 49, 46, 49]

def longName : CString := List.replicate 32 97

/-- The quad comes back as it was, the name does not. -/
theorem hostName_survives_two :
    (∃ h, hntoshfshost fullQuad 8 Bytes.zeros = some h ∧ HostOk fullQuad h) ∧
      ∃ h, hntoshfshost longName 32 Bytes.zeros = some h ∧ ¬HostOk longName h := by
  have hfull : ∃ h, hntoshfshost (fullQuad ++ []) fullQuad.length Bytes.zeros = some h := ⟨_, rfl⟩
  have hlong : ∃ h, hntoshfshost (longName ++ []) longName.length Bytes.zeros = some h := ⟨_, rfl⟩
  obtain ⟨h, hfull⟩ := hfull
  obtain ⟨g, hlong⟩ := hlong
  refine ⟨⟨h, hfull, (hostName_survives (by decide) hfull).2 (Or.inl ⟨[10, 1, 1, 1], ?_, by decide⟩)⟩,
    ⟨g, hlong, mt (hostName_survives (by decide) hlong).1 ?_⟩⟩
  · exact ⟨[49, 48], [49], [49], [49], 10, 1, 1, 1, rfl, rfl, by decide, by decide, by decide, by decide⟩
  · rintro (⟨v, hv, hpos⟩ | ⟨-, -, hle⟩)
    · have hspec := hostOctets_quad hv
      rw [if_pos hpos] at hspec
      cases hspec
    · exact absurd hle (by decide)

end Minipython.Tools.Admin
