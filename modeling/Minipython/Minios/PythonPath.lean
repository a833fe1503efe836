/-
# Minipython.Minios.PythonPath — the search path of the interpreter (minipython.c)

`pythonpath_append` goes through its string twice: one pass counts the parts between separators, the other cuts
them out. The first pass steps over the first character before it has looked at it.

A pointer into a string is the memory from there on; a read behind the memory that there is has no result.

`SplitsPath` is what is meant: the pieces between the separators, empty ones included, behind an empty
string for the current directory. Where the first character is no separator the first pass counts them all
(`countParts_string`), and the second stores as many (`cutParts_string`); otherwise it counts one less, and
the second pass leaves the last part out. For the empty string the first pass begins behind the terminator.

`qstr_from_strn` belongs to the interpreter. It is a parameter here, any function of the characters, and
`pythonpath_split` holds whichever it is.
-/
import Mathlib.Data.List.Count

namespace Minipython.Minios

/-! ## The two passes -/

/-- The memory from a pointer on. -/
abbrev CharPtr := List UInt8

/-- `PATHLIST_SEP_CHAR`. -/
def pathlistSepChar : UInt8 := 58

/-- `strchr`: the inner `none` is the null pointer. -/
def strchr (c : UInt8) : CharPtr → Option (Option CharPtr)
  | [] => none
  | x :: p => if x = c then some (some (x :: p)) else if x = 0 then some none else strchr c p

def strlen : CharPtr → Option Nat
  | [] => none
  | x :: p => if x = 0 then some 0 else (strlen p).map (· + 1)

theorem strchr_length_le {c : UInt8} {p q : CharPtr} (h : strchr c p = some (some q)) :
    0 < q.length ∧ q.length ≤ p.length := by
  induction p with
  | nil => cases h
  | cons x p ih =>
      unfold strchr at h
      split at h
      · obtain rfl := Option.some.inj (Option.some.inj h)
        exact ⟨Nat.succ_pos _, Nat.le_refl _⟩
      · split at h
        · cases h
        · exact ⟨(ih h).1, Nat.le_succ_of_le (ih h).2⟩

/-- The first pass, from the pointer `p` on. -/
def countParts (p : CharPtr) (pathNum : Nat) : Option Nat :=
  match h : strchr pathlistSepChar p.tail with
  | none => none
  | some none => some (pathNum + 1)
  | some (some q) => countParts q (pathNum + 1)
termination_by p.length
decreasing_by
  have hle := strchr_length_le h
  rw [List.length_tail] at hle
  omega

/-- How long the part is that begins at `p`. -/
def partLen (p : CharPtr) : Option Nat :=
  match strchr pathlistSepChar p with
  | none => none
  | some none => strlen p
  | some (some p1) => some (p.length - p1.length)

section Interned

variable {Qstr : Type} (qstrFromStrn : List UInt8 → Qstr)

/-- The second pass, with `n` parts to go. -/
def cutParts : Nat → CharPtr → Option (List Qstr)
  | 0, _ => some []
  | n + 1, p => do
      let len ← partLen p
      let parts ← cutParts n (p.drop (len + 1))
      return qstrFromStrn (p.take len) :: parts

/-- `pythonpath_append`: what it puts into `sys.path`; `mpQstr` is the empty string there. -/
def pythonpathAppend (mpQstr : Qstr) (path : CharPtr) : Option (List Qstr) := do
  let pathNum ← countParts path 1
  let parts ← cutParts qstrFromStrn (pathNum - 1) path
  return mpQstr :: parts

/-- Whatever stands behind the string, its parts are put into the list, and nothing behind it is read. -/
def SplitsPath (mpQstr : Qstr) (s : List UInt8) : Prop :=
  ∀ rest, pythonpathAppend qstrFromStrn mpQstr (s ++ 0 :: rest) =
    some (mpQstr :: (s.splitOn pathlistSepChar).map qstrFromStrn)

end Interned

/-! ## Strings -/

section Strings

variable {Qstr : Type} {qstrFromStrn : List UInt8 → Qstr} {mpQstr : Qstr} {a s : List UInt8} {p rest : CharPtr}
  {n pathNum : Nat}

theorem strchr_found {c : UInt8} (hc : c ∉ a) (h0 : (0 : UInt8) ∉ a) :
    strchr c (a ++ c :: p) = some (some (c :: p)) := by
  induction a with
  | nil => exact if_pos rfl
  | cons x a ih =>
      rw [List.mem_cons, not_or] at hc h0
      rw [List.cons_append, strchr, if_neg (Ne.symm hc.1), if_neg (Ne.symm h0.1)]
      exact ih hc.2 h0.2

theorem strchr_missing {c : UInt8} (hc : c ∉ a) (hc0 : c ≠ 0) (h0 : (0 : UInt8) ∉ a) :
    strchr c (a ++ 0 :: p) = some none := by
  induction a with
  | nil =>
      rw [List.nil_append, strchr, if_neg (Ne.symm hc0)]
      exact if_pos rfl
  | cons x a ih =>
      rw [List.mem_cons, not_or] at hc h0
      rw [List.cons_append, strchr, if_neg (Ne.symm hc.1), if_neg (Ne.symm h0.1)]
      exact ih hc.2 h0.2

theorem strlen_string (h0 : (0 : UInt8) ∉ a) : strlen (a ++ 0 :: p) = some a.length := by
  induction a with
  | nil => exact if_pos rfl
  | cons x a ih =>
      rw [List.mem_cons, not_or] at h0
      rw [List.cons_append, strlen, if_neg (Ne.symm h0.1), ih h0.2]
      rfl

/-- A string has no separator, or begins with a part and one. -/
theorem parts_cases {c : UInt8} (s : List UInt8) (n : Nat) (hn : s.count c = n) :
    c ∉ s ∧ n = 0 ∨ ∃ a t k, s = a ++ c :: t ∧ c ∉ a ∧ t.count c = k ∧ n = k + 1 := by
  by_cases hc : c ∈ s
  · obtain ⟨a, t, rfl, ha⟩ := List.eq_append_cons_of_mem hc
    refine Or.inr ⟨a, t, _, rfl, ha, rfl, ?_⟩
    rw [← hn, List.count_append, List.count_eq_zero_of_not_mem ha, List.count_cons_self, Nat.zero_add]
  · exact Or.inl ⟨hc, by rw [← hn, List.count_eq_zero_of_not_mem hc]⟩

theorem countParts_behind (h : strchr pathlistSepChar p.tail = none) : countParts p pathNum = none := by
  rw [countParts]
  split
  · rfl
  · rename_i hlast
    rw [h] at hlast
    cases hlast
  · rename_i q hq
    rw [h] at hq
    cases hq

theorem countParts_last (h : strchr pathlistSepChar p.tail = some none) :
    countParts p pathNum = some (pathNum + 1) := by
  rw [countParts]
  split
  · rename_i hnone
    rw [h] at hnone
    cases hnone
  · rfl
  · rename_i q hq
    rw [h] at hq
    cases hq

theorem countParts_next {q : CharPtr} (h : strchr pathlistSepChar p.tail = some (some q)) :
    countParts p pathNum = countParts q (pathNum + 1) := by
  rw [countParts]
  split
  · rename_i hnone
    rw [h] at hnone
    cases hnone
  · rename_i hlast
    rw [h] at hlast
    cases hlast
  · rename_i q' hq
    rw [Option.some.inj (Option.some.inj (hq.symm.trans h))]

/-- The first pass counts the separators behind the first character. -/
theorem countParts_string {x : UInt8} (h0 : (0 : UInt8) ∉ s) :
    countParts (x :: (s ++ 0 :: rest)) pathNum = some (pathNum + 1 + s.count pathlistSepChar) := by
  generalize hn : s.count pathlistSepChar = n
  induction n generalizing s x pathNum with
  | zero => exact countParts_last (strchr_missing (List.count_eq_zero.1 hn) (by decide) h0)
  | succ n ih =>
      obtain ⟨-, hzero⟩ | ⟨a, t, k, rfl, ha, hk, hsucc⟩ := parts_cases s _ hn
      · cases hzero
      rw [List.mem_append, not_or, List.mem_cons, not_or] at h0
      obtain rfl := Nat.succ.inj hsucc
      have hfound := @strchr_found a (t ++ 0 :: rest) pathlistSepChar ha h0.1
      have hnext := @countParts_next (x :: (a ++ pathlistSepChar :: (t ++ 0 :: rest))) pathNum _ hfound
      rw [List.append_assoc, List.cons_append, hnext, ih h0.2.2 hk, Nat.add_right_comm (pathNum + 1)]
      rfl

/-- As many parts as it is told to cut out are what the second pass has. -/
theorem cutParts_length {parts : List Qstr} (h : cutParts qstrFromStrn n p = some parts) :
    parts.length = n := by
  induction n generalizing p parts with
  | zero =>
      obtain rfl := Option.some.inj h
      rfl
  | succ n ih =>
      unfold cutParts at h
      obtain ⟨len, -, h⟩ := Option.bind_eq_some_iff.1 h
      obtain ⟨more, hmore, h⟩ := Option.bind_eq_some_iff.1 h
      obtain rfl := Option.some.inj h
      rw [List.length_cons, ih hmore]

theorem partLen_last (hc : pathlistSepChar ∉ a) (h0 : (0 : UInt8) ∉ a) :
    partLen (a ++ 0 :: p) = some a.length := by
  unfold partLen
  rw [strchr_missing hc (by decide) h0]
  exact strlen_string h0

theorem partLen_next (hc : pathlistSepChar ∉ a) (h0 : (0 : UInt8) ∉ a) :
    partLen (a ++ pathlistSepChar :: p) = some a.length := by
  unfold partLen
  rw [strchr_found hc h0, List.length_append]
  exact congrArg some (Nat.add_sub_cancel _ _)

/-- With one part more than there are separators the second pass cuts out all of them. -/
theorem cutParts_string (h0 : (0 : UInt8) ∉ s) :
    cutParts qstrFromStrn (s.count pathlistSepChar + 1) (s ++ 0 :: rest) =
      some ((s.splitOn pathlistSepChar).map qstrFromStrn) := by
  generalize hn : s.count pathlistSepChar = n
  induction n generalizing s with
  | zero =>
      have hc := List.count_eq_zero.1 hn
      rw [cutParts, partLen_last hc h0, List.splitOn_eq_singleton hc]
      show some [qstrFromStrn ((s ++ 0 :: rest).take s.length)] = _
      rw [List.take_left]
      rfl
  | succ n ih =>
      obtain ⟨-, hzero⟩ | ⟨a, t, k, rfl, ha, hk, hsucc⟩ := parts_cases s _ hn
      · cases hzero
      rw [List.mem_append, not_or, List.mem_cons, not_or] at h0
      obtain rfl := Nat.succ.inj hsucc
      have hrest : (a ++ pathlistSepChar :: (t ++ 0 :: rest)).drop (a.length + 1) = t ++ 0 :: rest := by
        rw [← List.drop_drop, List.drop_left]
        rfl
      rw [List.append_assoc, List.cons_append, cutParts, partLen_next ha h0.1,
        List.splitOn_append_cons_self_of_not_mem ha]
      show (cutParts qstrFromStrn (n + 1) ((a ++ pathlistSepChar :: (t ++ 0 :: rest)).drop (a.length + 1))).bind
        (fun parts => some (qstrFromStrn ((a ++ pathlistSepChar :: (t ++ 0 :: rest)).take a.length) :: parts)) = _
      rw [hrest, ih h0.2.2 hk, List.take_left]
      rfl

/-- What is put into the list for a string that is not empty. -/
theorem pythonpathAppend_cons {c : UInt8} {t : List UInt8} (h0 : (0 : UInt8) ∉ t) :
    pythonpathAppend qstrFromStrn mpQstr (c :: t ++ 0 :: rest) =
      (cutParts qstrFromStrn (t.count pathlistSepChar + 1) (c :: t ++ 0 :: rest)).map (mpQstr :: ·) := by
  unfold pythonpathAppend
  rw [List.cons_append, countParts_string h0]
  have hnum : 1 + 1 + t.count pathlistSepChar - 1 = t.count pathlistSepChar + 1 := by omega
  show (cutParts qstrFromStrn (1 + 1 + t.count pathlistSepChar - 1) _).bind _ = _
  rw [hnum, Option.map_eq_bind]
  rfl

/-- The path is split exactly if it is not empty and does not begin with a separator. -/
theorem splitsPath_iff (h0 : (0 : UInt8) ∉ s) :
    SplitsPath qstrFromStrn mpQstr s ↔ ∃ c t, s = c :: t ∧ c ≠ pathlistSepChar := by
  cases s with
  | nil =>
      refine iff_of_false (fun h => ?_) fun ⟨c, t, h, _⟩ => by cases h
      -- the first pass begins behind the terminator
      have hbehind : countParts [0] 1 = none := countParts_behind rfl
      have hpath := h []
      unfold pythonpathAppend at hpath
      rw [List.nil_append, hbehind] at hpath
      cases hpath
  | cons c t =>
      have ht : (0 : UInt8) ∉ t := fun h => h0 (List.mem_cons_of_mem c h)
      by_cases hc : c = pathlistSepChar
      · refine iff_of_false (fun h => ?_) fun ⟨d, u, heq, hne⟩ => hne ((List.cons.inj heq).1 ▸ hc)
        -- one part more than the first pass has counted
        have hpath := h []
        rw [pythonpathAppend_cons ht] at hpath
        obtain ⟨parts, hparts, heq⟩ := Option.map_eq_some_iff.1 hpath
        have hcut := cutParts_length hparts
        have hall := cutParts_length (@cutParts_string Qstr qstrFromStrn (c :: t) [] h0)
        rw [← (List.cons.inj heq).2, hcut, hc, List.count_cons_self] at hall
        omega
      · refine iff_of_true (fun rest => ?_) ⟨c, t, rfl, hc⟩
        have hcount : (c :: t).count pathlistSepChar = t.count pathlistSepChar :=
          List.count_cons_of_ne hc
        rw [pythonpathAppend_cons ht, ← hcount, cutParts_string h0]
        rfl

/-- The path is split into its parts, and nothing behind it is read, exactly if it is not empty and does not
begin with a separator. The string may be the whole of the memory that can be read; `qstr_from_strn` is any
function. -/
theorem pythonpath_split (hs : (0 : UInt8) ∉ s) :
    SplitsPath qstrFromStrn mpQstr s ↔ ∃ c t, s = c :: t ∧ c ≠ pathlistSepChar :=
  splitsPath_iff hs

end Strings

/-- `:lib`: the last part is lost. -/
theorem pythonpath_leading : ¬SplitsPath id [] [58, 108, 105, 98] := by
  rw [splitsPath_iff (by decide)]
  rintro ⟨c, t, heq, hne⟩
  exact hne (List.cons.inj heq).1.symm

/-- `a::b:` is split into four parts. -/
theorem pythonpath_split_four : SplitsPath id [] [97, 58, 58, 98, 58] :=
  (pythonpath_split (by decide)).2 ⟨_, _, rfl, by decide⟩

end Minipython.Minios
