/-
# Minipython.Shfs.StatsExport — the text of the statistics on the device (shfs_stats.c)

`export-stats` writes a header, a line for each element and a terminating zero. `readExport` is what a reader
on the other side does: it takes the text up to the zero apart at the newlines and semicolons. What it reads is
what was dumped, as long as the device takes all sectors.

The reader is written from the format, not from the writer: a row has the digest, the time of the last
access and the counters, apart by semicolons, in decimal or hexadecimal digits. No field of a row contains a
separator (`not_mem_elLine`), so taking the lines and fields apart is the inverse of putting them together
(`splitOn_lines`, `mapM_readRow`).

The exporter is that of `StatsDev`. The text is cut into sectors without regard to its lines, and
`stats_export` puts them together again. A return value that is not 0 means that the device refused a
sector.
-/
import Minipython.Lib.Text
import Minipython.Shfs.HashString
import Minipython.Shfs.StatsBooks
import Minipython.Shfs.StatsDev

namespace Minipython.Shfs

open Minipython.Lib
open Minipython.Shfs.HashString (hashUnparse_spec printed_digest stringMem IsHex)

/-! ## The text -/

def newline : UInt8 := 10
def semicolon : UInt8 := 59

/-- The digits that `hash_unparse` leaves in `sbuf`, of which `hlen * 2` are written. -/
def digestText (hlen : UInt8) (h : Hash512) : List UInt8 :=
  ((HashString.hashUnparse h hlen Bytes.zeros).map fun sbuf => (List.range (hlen.toNat * 2)).map sbuf).getD []

/-- `";%u;%u;%u"`. -/
def countsText (x : ElStats) : List UInt8 :=
  semicolon :: decimal x.laccess.toNat ++ semicolon :: decimal x.h.toNat ++ semicolon :: decimal x.m.toNat

/-- `"k(hash);u4g(laccess);u4s(hits);u4s(miss)"`. -/
def headerTail : List UInt8 :=
  [107, 40, 104, 97, 115, 104, 41, 59, 117, 52, 103, 40, 108, 97, 99, 99, 101, 115, 115, 41, 59, 117, 52, 115,
    40, 104, 105, 116, 115, 41, 59, 117, 52, 115, 40, 109, 105, 115, 115, 41]

/-- `"x%uk(hash);u4g(laccess);u4s(hits);u4s(miss)"`. -/
def headerText (hlen : UInt8) : List UInt8 := 120 :: decimal hlen.toNat ++ headerTail

/-! ## The command -/

section Command

variable (bd : StatsBd)

/-- Two calls that return the first error. -/
def andThen (r : Int × StatsDev) (next : StatsDev → Int × StatsDev) : Int × StatsDev :=
  if r.1 < 0 then r else next r.2

/-- `_shcmd_shfs_export_el_stats`. What the write of the newline returns is not looked at. -/
def shcmdShfsExportElStats (hlen : UInt8) (h : Hash512) (x : ElStats) (d : StatsDev) : Int × StatsDev :=
  andThen (statsDevWrite bd (digestText hlen h) d) fun d =>
    andThen (statsDevWrite bd (countsText x) d) fun d => (0, (statsDevWrite bd [newline] d).2)

/-- `shfs_dump_stats` of the exporter, for the elements in order with the values that it finds. -/
def dumpElStats (hlen : UInt8) : List (Hash512 × ElStats) → StatsDev → Int × StatsDev
  | [], d => (0, d)
  | (h, x) :: els, d => andThen (shcmdShfsExportElStats bd hlen h x d) (dumpElStats hlen els)

/-- `shcmd_shfs_stats_export` on a mounted volume. -/
def shcmdShfsStatsExport (hlen : UInt8) (els : List (Hash512 × ElStats)) (d : StatsDev) : Int × StatsDev :=
  andThen (statsDevWrite bd (headerText hlen) (statsDevReset d)) fun d =>
    andThen (statsDevWrite bd [newline] d) fun d =>
      andThen (dumpElStats bd hlen els d) fun d =>
        andThen (statsDevWrite bd [0] d) fun d =>
          andThen (statsDevFlush bd d) fun d => (0, d)

end Command

/-! ## Reading it -/

/-- A line of the export: a digest and its statistics. -/
structure ExportRow (hlen : Nat) where
  digest : Digest hlen
  stats : ElStats
  deriving DecidableEq

/-- The row of a line. -/
def readRow (hlen : Nat) (line : List UInt8) : Option (ExportRow hlen) :=
  match line.splitOn semicolon with
  | [digest, laccess, h, m] => do
      let digest ← hashParse digest hlen
      let laccess ← readDecimal laccess
      let h ← readDecimal h
      let m ← readDecimal m
      return ⟨.of hlen digest, UInt32.ofNat laccess, UInt32.ofNat h, UInt32.ofNat m⟩
  | _ => none

/-- The rows behind the header. -/
def readExport (hlen : UInt8) (text : List UInt8) : Option (List (ExportRow hlen.toNat)) :=
  match text.splitOn newline with
  | header :: lines =>
      if header = headerText hlen ∧ lines.getLast? = some [] then lines.dropLast.mapM (readRow hlen.toNat)
      else none
  | [] => none

/-- The bytes of the device, sector after sector. -/
def StatsDev.byte (d : StatsDev) (bd : StatsBd) (i : Nat) : UInt8 :=
  d.disk (i / bd.ssize.toNat) (i % bd.ssize.toNat)

/-- There is a string at the beginning of the device. -/
def StatsDev.HoldsString (d : StatsDev) (bd : StatsBd) (text : List UInt8) : Prop :=
  (∀ i (hi : i < text.length), d.byte bd i = text[i] ∧ text[i] ≠ 0) ∧ d.byte bd text.length = 0

/-! ## Lines -/

/-- The line of an element. -/
def elLine (hlen : UInt8) (el : Hash512 × ElStats) : List UInt8 := digestText hlen el.1 ++ countsText el.2

/-- The text of an export. -/
def exportText (hlen : UInt8) (els : List (Hash512 × ElStats)) : List UInt8 :=
  headerText hlen ++ newline :: els.flatMap fun el => elLine hlen el ++ [newline]

section Text

variable {hlen : UInt8} {h : Hash512} {x : ElStats} {els : List (Hash512 × ElStats)}

/-- The digits of a digest are hexadecimal, and are read as the digest. -/
theorem digestText_spec (hpos : 1 ≤ hlen) (hl : hlen ≤ 64) (h : Hash512) :
    (∀ c ∈ digestText hlen h, IsHex c) ∧
      ∃ d, hashParse (digestText hlen h) hlen.toNat = some d ∧ SameHash hlen.toNat d h := by
  rcases hashUnparse_spec h Bytes.zeros hpos with ⟨sbuf, hprint, hat, hterm⟩
  rcases printed_digest hat hterm with ⟨hhex, hvalue⟩
  have hl' : hlen.toNat ≤ 64 := UInt8.le_iff_toNat_le.1 hl
  have htext : digestText hlen h = (List.range (hlen.toNat * 2)).map sbuf := by
    rw [digestText, hprint]
    rfl
  have hmem : ∀ i < 2 * hlen.toNat, stringMem (digestText hlen h) i = sbuf i := by
    intro i hi
    have hin : i < ((List.range (hlen.toNat * 2)).map sbuf).length := by
      simp
      omega
    rw [htext, stringMem, List.getD_eq_getElem _ _ hin, List.getElem_map, List.getElem_range]
  refine ⟨fun c hc => ?_, ?_⟩
  · rw [htext] at hc
    rcases List.mem_map.1 hc with ⟨i, hi, rfl⟩
    exact hhex.1 i (by have := List.mem_range.1 hi; omega)
  · have hcount : hlen.toNat * 2 % 256 / 2 = hlen.toNat := by omega
    have hbytes := (HashString.hashParseBytes_eq_some hlen.toNat (digestText hlen h) _).2
      ⟨by rw [htext]; simp; omega, fun i hi => (hmem i hi).symm ▸ hhex.1 i hi, rfl⟩
    refine ⟨_, by rw [hashParse, hcount, hbytes]; rfl, fun i hi => ?_⟩
    have hin : i < ((List.range hlen.toNat).map
        (HashString.pairValue (stringMem (digestText hlen h)))).length := by simpa using hi
    show List.getD _ i 0 = _
    rw [List.getD_eq_getElem _ _ hin, List.getElem_map, List.getElem_range, ← hvalue i hi, HashString.pairValue,
      HashString.pairValue, hmem _ (by omega), hmem _ (by omega)]

/-- A character that is no hexadecimal digit. -/
theorem not_mem_digestText (hpos : 1 ≤ hlen) (hl : hlen ≤ 64) {c : UInt8} (hc : ¬ IsHex c) :
    c ∉ digestText hlen h := fun hmem => hc ((digestText_spec hpos hl h).1 c hmem)

/-- The line of an element is read as its row. -/
theorem readRow_elLine (hpos : 1 ≤ hlen) (hl : hlen ≤ 64) (h : Hash512) (x : ElStats) :
    readRow hlen.toNat (elLine hlen (h, x)) = some ⟨.of hlen.toNat h, x⟩ := by
  rcases (digestText_spec hpos hl h).2 with ⟨d, hparse, hsame⟩
  have hsplit : (elLine hlen (h, x)).splitOn semicolon =
      [digestText hlen h, decimal x.laccess.toNat, decimal x.h.toNat, decimal x.m.toNat] := by
    have hno : ∀ n, semicolon ∉ decimal n := fun n => not_mem_decimal (by decide)
    have hdigest : semicolon ∉ digestText hlen h := not_mem_digestText hpos hl (by unfold IsHex; decide)
    simp only [elLine, countsText, List.cons_append, List.append_assoc]
    rw [List.splitOn_append_cons_self_of_not_mem hdigest, List.splitOn_append_cons_self_of_not_mem (hno _),
      List.splitOn_append_cons_self_of_not_mem (hno _), List.splitOn_eq_singleton (hno _)]
  simp only [readRow, hsplit, hparse, readDecimal_decimal, Option.bind_eq_bind, Option.bind_some,
    UInt32.ofNat_toNat]
  rw [Digest.of_eq_iff.2 hsame]
  rfl

/-- No line has a newline or a zero in it. -/
theorem not_mem_elLine (hpos : 1 ≤ hlen) (hl : hlen ≤ 64) {el : Hash512 × ElStats} {c : UInt8}
    (hc : c = newline ∨ c = 0) : c ∉ elLine hlen el := by
  have hhex : ¬ IsHex c := by rcases hc with rfl | rfl <;> unfold IsHex <;> decide
  have hdigit : isDigit c = false := by rcases hc with rfl | rfl <;> decide
  have hsemi : c ≠ semicolon := by rcases hc with rfl | rfl <;> decide
  simp [elLine, countsText, not_mem_digestText hpos hl hhex, not_mem_decimal hdigit, hsemi]

theorem not_mem_headerText {c : UInt8} (hc : c = newline ∨ c = 0) : c ∉ headerText hlen := by
  have hdigit : isDigit c = false := by rcases hc with rfl | rfl <;> decide
  have htail : c ∉ headerTail := by rcases hc with rfl | rfl <;> decide
  have hx : c ≠ 120 := by rcases hc with rfl | rfl <;> decide
  simp [headerText, not_mem_decimal hdigit, htail, hx]

/-- The lines of the elements. -/
theorem splitOn_lines (hpos : 1 ≤ hlen) (hl : hlen ≤ 64) (els : List (Hash512 × ElStats)) :
    (els.flatMap fun el => elLine hlen el ++ [newline]).splitOn newline = els.map (elLine hlen) ++ [[]] := by
  induction els with
  | nil => rfl
  | cons el els ih =>
      rw [List.flatMap_cons, List.append_assoc, List.singleton_append,
        List.splitOn_append_cons_self_of_not_mem (not_mem_elLine hpos hl (.inl rfl)), ih]
      rfl

theorem mapM_readRow (hpos : 1 ≤ hlen) (hl : hlen ≤ 64) (els : List (Hash512 × ElStats)) :
    (els.map (elLine hlen)).mapM (readRow hlen.toNat) = some (els.map fun el => ⟨.of hlen.toNat el.1, el.2⟩) := by
  induction els with
  | nil => rfl
  | cons el els ih =>
      rw [List.map_cons, List.mapM_cons, ih, readRow_elLine hpos hl]
      rfl

/-- The text of an export is read as the rows of its elements. -/
theorem readExport_exportText (hpos : 1 ≤ hlen) (hl : hlen ≤ 64) (els : List (Hash512 × ElStats)) :
    readExport hlen (exportText hlen els) = some (els.map fun el => ⟨.of hlen.toNat el.1, el.2⟩) := by
  have hsplit : (exportText hlen els).splitOn newline = headerText hlen :: (els.map (elLine hlen) ++ [[]]) := by
    rw [exportText, List.splitOn_append_cons_self_of_not_mem (not_mem_headerText (.inl rfl)),
      splitOn_lines hpos hl]
  simp only [readExport, hsplit, List.getLast?_concat, List.dropLast_concat, and_self, if_true]
  exact mapM_readRow hpos hl els

/-- No zero is in the text. -/
theorem not_mem_exportText (hpos : 1 ≤ hlen) (hl : hlen ≤ 64) (els : List (Hash512 × ElStats)) :
    0 ∉ exportText hlen els := by
  simp only [exportText, List.mem_append, List.mem_cons, List.mem_flatMap, not_or, not_exists, not_and]
  exact ⟨not_mem_headerText (.inr rfl), by decide, fun el _ =>
    ⟨not_mem_elLine hpos hl (.inr rfl), by decide, List.not_mem_nil⟩⟩

end Text

/-! ## The command as a list of calls -/

/-- A function makes the calls, unless the device refuses a sector. -/
structure Makes (bd : StatsBd) (f : StatsDev → Int × StatsDev) (cs : List StatsCall) : Prop where
  log : ∀ d, d.log <+: (f d).2.log
  run : ∀ d, AllTaken (f d).2 → 0 ≤ (f d).1 ∧ (f d).2 = statsRun bd d cs

section Calls

variable {bd : StatsBd} {f g : StatsDev → Int × StatsDev} {cs cs' : List StatsCall}

theorem Makes.andThen (hf : Makes bd f cs) (hg : Makes bd g cs') :
    Makes bd (fun d => andThen (f d) g) (cs ++ cs') := by
  constructor
  · intro d
    simp only [Shfs.andThen]
    split
    · exact hf.log d
    · exact (hf.log d).trans (hg.log _)
  · intro d hok
    simp only [Shfs.andThen] at hok ⊢
    split at hok
    · rename_i hneg
      exact absurd (hf.run d hok).1 (not_le.2 hneg)
    · rename_i hpos
      rw [if_neg hpos]
      rcases hf.run d (hok.of_prefix (hg.log _)) with ⟨-, hrun⟩
      rcases hg.run _ hok with ⟨hret, hrun'⟩
      exact ⟨hret, by rw [hrun', hrun, statsRun, statsRun, statsRun, List.foldl_append]⟩

theorem flush_ret {d : StatsDev} (hok : AllTaken (statsDevFlush bd d).2) : 0 ≤ (statsDevFlush bd d).1 := by
  unfold statsDevFlush at hok ⊢
  split
  · exact Int.le_refl 0
  · rename_i hle
    rw [if_neg hle] at hok
    simp only at hok ⊢
    split
    · rename_i hret
      exact hret
    · rename_i hret
      rw [if_neg hret] at hok
      exact absurd (hok _ (List.mem_append_right _ (List.mem_singleton_self _))) hret

theorem writeLoop_ret {turns : Nat} {data : List UInt8} {d : StatsDev}
    (hok : AllTaken (statsDevWriteLoop bd turns data d).2) : 0 ≤ (statsDevWriteLoop bd turns data d).1 := by
  induction turns generalizing data d with
  | zero => exact Int.le_refl 0
  | succ turns ih =>
      simp only [statsDevWriteLoop] at hok ⊢
      split
      · exact Int.le_refl 0
      · rename_i hne
        rw [if_neg hne] at hok
        split
        · rename_i hfull
          rw [if_pos hfull] at hok
          split
          · rename_i hneg
            rw [if_pos hneg] at hok
            exact absurd (flush_ret hok) (not_le.2 hneg)
          · rename_i hret
            rw [if_neg hret] at hok
            exact ih hok
        · rename_i hfull
          rw [if_neg hfull] at hok
          exact ih hok

theorem makes_write (data : List UInt8) : Makes bd (statsDevWrite bd data) [.write data] :=
  ⟨fun d => writeLoop_log bd _ data d, fun _ hok => ⟨writeLoop_ret hok, rfl⟩⟩

/-- A write whose result is not looked at. -/
theorem makes_write_blind (data : List UInt8) :
    Makes bd (fun d => (0, (statsDevWrite bd data d).2)) [.write data] :=
  ⟨fun d => writeLoop_log bd _ data d, fun _ _ => ⟨Int.le_refl 0, rfl⟩⟩

theorem makes_flush : Makes bd (fun d => andThen (statsDevFlush bd d) fun d => (0, d)) [.flush] := by
  have hflush : Makes bd (statsDevFlush bd) [.flush] := ⟨flush_log bd, fun d hok => ⟨flush_ret hok, rfl⟩⟩
  exact hflush.andThen ⟨fun d => List.prefix_refl d.log, fun d _ => ⟨Int.le_refl 0, rfl⟩⟩

/-- The writes for an element. -/
def elCalls (hlen : UInt8) (el : Hash512 × ElStats) : List StatsCall :=
  [.write (digestText hlen el.1), .write (countsText el.2), .write [newline]]

/-- The calls of an export. -/
def exportCalls (hlen : UInt8) (els : List (Hash512 × ElStats)) : List StatsCall :=
  [.write (headerText hlen), .write [newline]] ++ els.flatMap (elCalls hlen) ++ [.write [0]]

theorem makes_dump (hlen : UInt8) (els : List (Hash512 × ElStats)) :
    Makes bd (dumpElStats bd hlen els) (els.flatMap (elCalls hlen)) := by
  induction els with
  | nil => exact ⟨fun d => List.prefix_refl d.log, fun d _ => ⟨Int.le_refl 0, rfl⟩⟩
  | cons el els ih =>
      exact ((makes_write _).andThen ((makes_write _).andThen (makes_write_blind _))).andThen ih

theorem makes_export (hlen : UInt8) (els : List (Hash512 × ElStats)) {d : StatsDev}
    (hok : AllTaken (shcmdShfsStatsExport bd hlen els d).2) :
    0 ≤ (shcmdShfsStatsExport bd hlen els d).1 ∧
      (shcmdShfsStatsExport bd hlen els d).2 =
        statsRun bd (statsDevReset d) (exportCalls hlen els ++ [.flush]) := by
  have hmakes : Makes bd _ ([StatsCall.write (headerText hlen)] ++ ([StatsCall.write [newline]] ++
      (els.flatMap (elCalls hlen) ++ ([StatsCall.write [0]] ++ [StatsCall.flush])))) :=
    (makes_write _).andThen ((makes_write _).andThen ((makes_dump hlen els).andThen
      ((makes_write _).andThen makes_flush)))
  simp only [exportCalls, List.append_assoc]
  exact hmakes.run (statsDevReset d) hok

theorem stream_elCalls (hlen : UInt8) (els : List (Hash512 × ElStats)) :
    stream (els.flatMap (elCalls hlen)) = els.flatMap fun el => elLine hlen el ++ [newline] := by
  induction els with
  | nil => rfl
  | cons el els ih =>
      rw [List.flatMap_cons, List.flatMap_cons, stream, List.flatMap_append, ← stream, ← stream, ih]
      simp [stream, elCalls, StatsCall.data, elLine]

theorem stream_exportCalls (hlen : UInt8) (els : List (Hash512 × ElStats)) :
    stream (exportCalls hlen els) = exportText hlen els ++ [0] := by
  have hels := stream_elCalls hlen els
  simp only [stream, exportCalls, List.flatMap_append] at hels ⊢
  rw [hels]
  simp [exportText, StatsCall.data]

end Calls

theorem andThen_nonpos {r : Int × StatsDev} {g : StatsDev → Int × StatsDev} (hg : ∀ d, (g d).1 ≤ 0) :
    (andThen r g).1 ≤ 0 := by
  unfold andThen
  split
  · rename_i hneg
    exact Int.le_of_lt hneg
  · exact hg r.2

/-- A stream that ends with its only zero is a string on the device. -/
theorem Exported.holdsString {bd : StatsBd} {disk : Nat → Bytes} {text : List UInt8} {d : StatsDev}
    (h : Exported bd disk (text ++ [0]) d) (h0 : 0 ∉ text) : d.HoldsString bd text := by
  have hpos := bd.ssize_pos
  have hbyte : ∀ i < (text ++ [0]).length, d.byte bd i = (text ++ [0]).getD i 0 := by
    intro i hi
    have hsector : i / bd.ssize.toNat < sectorsOf bd (text ++ [0]).length := by
      rw [sectorsOf_pos bd (by omega)]
      have hle : i / bd.ssize.toNat ≤ ((text ++ [0]).length - 1) / bd.ssize.toNat :=
        Nat.div_le_div_right (by omega)
      omega
    rw [StatsDev.byte, h.1 _ hsector _ (Nat.mod_lt _ hpos), Nat.div_add_mod']
  constructor
  · intro i hi
    refine ⟨?_, fun hz => h0 (hz ▸ List.getElem_mem hi)⟩
    rw [hbyte i (by simp; omega), List.getD_append _ _ _ _ hi, List.getD_eq_getElem _ _ hi]
  · rw [hbyte _ (by simp), List.getD_append_right _ _ _ _ (Nat.le_refl _), Nat.sub_self]
    rfl

/-- What an export leaves on the device, as long as that takes all sectors: a string of which the reader gets
the dumped elements, each with its digest and its counters, in order. The command returns 0, and no sector
behind the string is written. -/
theorem export_reads_back (bd : StatsBd) {hlen : UInt8} (hpos : 1 ≤ hlen) (hl : hlen ≤ 64)
    (els : List (Hash512 × ElStats)) (d : StatsDev)
    (hok : AllTaken (shcmdShfsStatsExport bd hlen els d).2) :
    ∃ text, (shcmdShfsStatsExport bd hlen els d).2.HoldsString bd text ∧
      readExport hlen text = some (els.map fun el => ⟨.of hlen.toNat el.1, el.2⟩) ∧
      (shcmdShfsStatsExport bd hlen els d).1 = 0 ∧
      ∀ k, text.length < k * bd.ssize.toNat → (shcmdShfsStatsExport bd hlen els d).2.disk k = d.disk k := by
  rcases makes_export hlen els hok with ⟨hret, hcalls⟩
  have hexp := stats_export bd d (exportCalls hlen els) (hcalls ▸ hok)
  rw [← hcalls, stream_exportCalls] at hexp
  refine ⟨exportText hlen els, hexp.holdsString (not_mem_exportText hpos hl els),
    readExport_exportText hpos hl els, ?_, fun k hk => ?_⟩
  · refine Int.le_antisymm ?_ ?_
    · exact andThen_nonpos fun _ => andThen_nonpos fun _ => andThen_nonpos fun _ => andThen_nonpos fun _ =>
        andThen_nonpos fun _ => Int.le_refl 0
    · exact hret
  · refine hexp.2.1 k ?_
    have hpos := bd.ssize_pos
    rw [sectorsOf, List.length_append, List.length_singleton]
    refine Nat.le_of_lt_succ ((Nat.div_lt_iff_lt_mul hpos).2 ?_)
    rw [Nat.succ_mul]
    omega

/-- A device with one sector. -/
def sectorBd : StatsBd where
  ssize := 512
  sectors := 1
  sync _ sec := if sec < 1 then 0 else -1
  ssize_pos := by decide
  size_le := by decide
  past_end n sec h := by
    have hnot : ¬sec < 1 := fun hlt => absurd (UInt64.lt_iff_toNat_lt.1 hlt) (Nat.not_lt.2 h)
    rw [if_neg hnot]
    decide

/-- Two elements with digests of one byte. -/
def twoEls : List (Hash512 × ElStats) :=
  [(fun _ => 171, ⟨1500000000, 12, 0⟩), (fun _ => 7, ⟨0, 0, 4294967295⟩)]

theorem export_reads_back_two :
    ∃ text, (shcmdShfsStatsExport sectorBd 1 twoEls ⟨fun _ => 9, 5, 1, fun _ _ => 7, []⟩).2.HoldsString sectorBd text ∧
      readExport 1 text = some (twoEls.map fun el => ⟨.of 1 el.1, el.2⟩) ∧
      (shcmdShfsStatsExport sectorBd 1 twoEls ⟨fun _ => 9, 5, 1, fun _ _ => 7, []⟩).1 = 0 ∧
      ∀ k, text.length < k * 512 →
        (shcmdShfsStatsExport sectorBd 1 twoEls ⟨fun _ => 9, 5, 1, fun _ _ => 7, []⟩).2.disk k = fun _ => 7 :=
  export_reads_back sectorBd (by decide) (by decide) twoEls ⟨fun _ => 9, 5, 1, fun _ _ => 7, []⟩
    (by unfold AllTaken; decide +kernel)

end Minipython.Shfs
