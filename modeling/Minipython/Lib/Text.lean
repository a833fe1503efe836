/-
# Minipython.Lib.Text — lines and decimal numbers as text

Lines are printed each with an end behind it (`unlines`), and split again at the ends (`textLines`). They come
back as they were if no line has the end in it: `textLines_unlines`.

`%u` prints a number (`decimal`), and `readDecimal` reads one back: `readDecimal_decimal`. Only digits are
printed, so a number does not run into what is around it, and a separator that is no digit is not part of one.

Bytes stand for characters. A digit is a byte of the range 48 to 57.
-/
import Mathlib.Data.List.Basic

namespace Minipython.Lib

/-! ## Lines -/

section Lines

universe u

variable {α : Type u}

/-- A text of lines. -/
def unlines (sep : α) (lines : List (List α)) : List α := lines.flatMap fun line => line ++ [sep]

@[simp]
theorem unlines_append (sep : α) (lines lines' : List (List α)) :
    unlines sep (lines ++ lines') = unlines sep lines ++ unlines sep lines' := List.flatMap_append

/-- The lines are found again. -/
theorem splitOn_unlines [DecidableEq α] {sep : α} {lines : List (List α)} (h : ∀ line ∈ lines, sep ∉ line) :
    (unlines sep lines).splitOn sep = lines ++ [[]] := by
  induction lines with
  | nil => rfl
  | cons line lines ih =>
      have hhere := h line List.mem_cons_self
      have hrest := ih fun line' hline' => h line' (List.mem_cons_of_mem _ hline')
      rw [unlines, List.flatMap_cons, ← unlines, List.append_assoc, List.singleton_append,
        List.splitOn_append_cons_self_of_not_mem hhere, hrest]
      rfl

/-- The lines of a text that ends with one. -/
def textLines [DecidableEq α] (sep : α) (text : List α) : Option (List (List α)) :=
  if (text.splitOn sep).getLast? = some [] then some (text.splitOn sep).dropLast else none

theorem textLines_unlines [DecidableEq α] {sep : α} {lines : List (List α)} (h : ∀ line ∈ lines, sep ∉ line) :
    textLines sep (unlines sep lines) = some lines := by
  rw [textLines, splitOn_unlines h, List.getLast?_concat, if_pos rfl, List.dropLast_concat]

end Lines

/-! ## Numbers -/

/-- `%u`. -/
def decimal (n : Nat) : List UInt8 := (Nat.toDigits 10 n).map fun c => UInt8.ofNat c.toNat

def isDigit (c : UInt8) : Bool := 48 ≤ c && c ≤ 57

/-- The number that digits stand for. -/
def readDecimal (s : List UInt8) : Option Nat :=
  if s ≠ [] ∧ s.all isDigit = true then
    some (Nat.ofDigitChars 10 (s.map fun c => Char.ofNat c.toNat) 0)
  else none

/-- A printed digit. -/
theorem digit_toNat {n : Nat} {c : Char} (hc : c ∈ Nat.toDigits 10 n) :
    48 ≤ c.toNat ∧ c.toNat ≤ 57 ∧ (UInt8.ofNat c.toNat).toNat = c.toNat := by
  have hdigit := Nat.isDigit_of_mem_toDigits (by decide) (by decide) hc
  have hrange : 48 ≤ c.toNat ∧ c.toNat ≤ 57 := by
    simpa [Char.isDigit, UInt32.le_iff_toNat_le] using hdigit
  refine ⟨hrange.1, hrange.2, ?_⟩
  rw [UInt8.toNat_ofNat']
  omega

theorem isDigit_decimal {n : Nat} {c : UInt8} (hc : c ∈ decimal n) : isDigit c = true := by
  rcases List.mem_map.1 hc with ⟨d, hd, rfl⟩
  rcases digit_toNat hd with ⟨hlow, hhigh, htoNat⟩
  simp only [isDigit, Bool.and_eq_true, decide_eq_true_eq, UInt8.le_iff_toNat_le, htoNat]
  exact ⟨hlow, hhigh⟩

theorem decimal_ne_nil (n : Nat) : decimal n ≠ [] := by
  simp [decimal, Nat.toDigits_ne_nil]

/-- A printed number has no other characters. -/
theorem not_mem_decimal {n : Nat} {c : UInt8} (hc : isDigit c = false) : c ∉ decimal n := by
  intro hmem
  rw [isDigit_decimal hmem] at hc
  cases hc

/-- A printed number is read as itself. -/
theorem readDecimal_decimal (n : Nat) : readDecimal (decimal n) = some n := by
  have hback : (decimal n).map (fun c => Char.ofNat c.toNat) = Nat.toDigits 10 n := by
    rw [decimal, List.map_map]
    refine (List.map_congr_left fun c hc => ?_).trans (List.map_id _)
    rw [Function.comp_apply, (digit_toNat hc).2.2, Char.ofNat_toNat]
    rfl
  rw [readDecimal, if_pos ⟨decimal_ne_nil n, List.all_eq_true.2 fun c hc => isDigit_decimal hc⟩, hback,
    Nat.ofDigitChars_ten_toDigits]

end Minipython.Lib
