/-
# Minipython.Tools.Filling — volumes to which files are only added (shfs_admin.c)

`Filled V u s` says that nothing that is in use ends behind the chunk `u`: no container of a file on disk
or in memory, and no area of the allocator list. First fit answers no chunk behind the end of all areas,
so a new file moves `u` on by its own chunks at most, whether it is added or the action fails on the way
(`filled_step`). As long as the chunks of all files that were tried fit between the tables and the end of
the volume, there is room for the next one (`room_of_adds`). A file without contents takes no chunk, but
it needs one in front of the end.
-/
import Minipython.Tools.Sessions

namespace Minipython.Tools.Admin

open Minipython.Lib
open Minipython.Lib.Extent
open Minipython.Shfs
open Htable

/-! ## Runs that only add files -/

/-- A mount, an unmount, or a file that is added. -/
def OnlyAdds : Event → Prop
  | .token a => ∃ j env, a = .addObj j env
  | _ => True

/-- The size of the file that an event adds. -/
def addedSize : Event → List Nat
  | .token (.addObj _ env) => [env.stSize]
  | _ => []

/-- The sizes of the files that the events add, in order. -/
def addedSizes (es : List Event) : List Nat := es.flatMap addedSize

/-- The chunks that files of these sizes need. -/
def Volume.chunksOf (V : Volume) (sizes : List Nat) : Nat :=
  (sizes.map fun n => divRoundUp n V.chunksize).sum

theorem Volume.chunksOf_append (V : Volume) (l l' : List Nat) :
    V.chunksOf (l ++ l') = V.chunksOf l + V.chunksOf l' := by
  unfold chunksOf
  rw [List.map_append, List.sum_append]

theorem Volume.chunksOf_sublist (V : Volume) {l l' : List Nat} (h : l.Sublist l') :
    V.chunksOf l ≤ V.chunksOf l' := by
  unfold chunksOf
  induction h with
  | slnil => exact Nat.le_refl _
  | cons n _ ih => exact Nat.le_trans ih (Nat.le_add_left _ _)
  | cons_cons n _ ih => exact Nat.add_le_add_left ih _

/-! ## The invariant -/

/-- An entry in use is a file whose container ends at `u` or before. -/
def EntryBelow (V : Volume) (u : Nat) (e : Hentry) : Prop :=
  hashIsZero e V.hlen = false → e.isLink = false ∧ e.chunk + containerLen V e ≤ u

/-- The entries in memory and the areas of the allocator list end at `u` or before. -/
structure VolBelow (V : Volume) (u : Nat) (v : VolInfo) : Prop where
  entries : ∀ i < V.conf.htableNbEntries, EntryBelow V u (V.memEntry v i)
  areas : ∀ a ∈ v.al.entries, a.stop ≤ u

/-- Nothing in use ends behind the chunk `u`. -/
structure Sys.Filled (V : Volume) (u : Nat) (s : Sys) : Prop where
  ok : s.Ok V
  tables : V.tablesEnd ≤ u
  disk : ∀ i < V.conf.htableNbEntries, EntryBelow V u (V.diskEntry s.disk i)
  session : s.Holds fun v _ => VolBelow V u v

section Below

variable {V : Volume} {lib : MhashLib} {u w : Nat} {v : VolInfo}

theorem EntryBelow.mono {e : Hentry} (h : EntryBelow V u e) (hu : u ≤ w) : EntryBelow V w e := fun hz =>
  ⟨(h hz).1, Nat.le_trans (h hz).2 hu⟩

theorem EntryBelow.congr {e e' : Hentry} (h : EntryBelow V u e) (hs : SameHentry e' e) :
    EntryBelow V u e' := by
  intro hz
  rw [hashIsZero_congr (hs.sameHash V.hlen_le)] at hz
  rw [hs.isLink, hs.attrs.1, containerLen_congr hs]
  exact h hz

theorem VolBelow.mono (h : VolBelow V u v) (hu : u ≤ w) : VolBelow V w v where
  entries := fun i hi => (h.entries i hi).mono hu
  areas := fun a ha => Nat.le_trans (h.areas a ha) hu

/-- An area ends no later than its sum says. -/
theorem aentryOf_stop_le (start len : Nat) : (aentryOf start len).stop ≤ start + len := Nat.mod_le _ _

theorem register_below {al : Alist} {mem : Bool} {start len : Nat} (h : ∀ a ∈ al.entries, a.stop ≤ u)
    (hu : start + len ≤ u) : ∀ a ∈ (shfsAlistRegister al mem start len).2.entries, a.stop ≤ u := by
  intro a ha
  cases mem with
  | false => exact h a ha
  | true =>
      rw [register_entries] at ha
      obtain rfl | ha := mem_insertByStart.1 ha
      · exact Nat.le_trans (aentryOf_stop_le start len) hu
      · exact h a ha

/-- The container of a new file entry. -/
theorem entryBelow_file {e : Hentry} {fhash : Hash512} {cchk now : Nat} {env : AddEnv} {j : Token}
    (hc : cchk < u64Size) (hu : cchk + env.csize V ≤ u) :
    EntryBelow V u (fileHentry e V.hlen fhash cchk env.stSize now j) := by
  intro _
  have hsize : env.stSize < u64Size := Nat.lt_trans env.stSize_lt (by decide)
  obtain ⟨hchunk, hoff, hlen⟩ := @fileHentry_container e V.hlen cchk env.stSize now fhash j hc hsize
  constructor
  · unfold Hentry.isLink
    rw [fileHentry_flags]
    rfl
  · unfold containerLen
    rw [hchunk, hoff, hlen, Nat.zero_add, wrap64_of_lt hsize]
    exact hu

/-- What is left of the allocator list when a container is given back. -/
theorem release_below {s : Session} {cchk csize : Nat} (h : ∀ a ∈ s.vol.al.entries, a.stop ≤ u) :
    ∀ a ∈ (releaseContainer s cchk csize).vol.al.entries, a.stop ≤ u := by
  unfold releaseContainer
  cases hal : shfsAlistUnregister s.vol.al cchk csize with
  | none => exact h
  | some al =>
      intro a ha
      change a ∈ al.entries at ha
      rw [(unregister_some hal).2.1] at ha
      exact h a (List.mem_of_mem_erase ha)

/-! ## A file is added -/

section Add

variable {s : Session} {j : Token} {env : AddEnv} {cchk : Nat}

/-- First fit takes a container that begins at `u` or before. -/
theorem Reserves.le (hres : Reserves V env s cchk) (h : VolBelow V u s.vol) : cchk ≤ u := by
  have hfound := hres.found
  unfold findContainer at hfound
  simp only at hfound
  split at hfound
  · cases hfound
  · obtain rfl := Option.some.inj hfound
    exact findFree_le h.areas

theorem VolBelow.reserve (h : VolBelow V u s.vol) (hres : Reserves V env s cchk) :
    ∀ a ∈ (reserve V env cchk s).vol.al.entries, a.stop ≤ u + env.csize V :=
  register_below (fun a ha => Nat.le_trans (h.areas a ha) (Nat.le_add_right _ _))
    (Nat.add_le_add_right (hres.le h) _)

/-- Once the entry is inserted. -/
theorem VolBelow.inserted (h : VolBelow V u s.vol) (hg : Good V s.vol s.disk)
    (hres : Reserves V env s cchk) {fhash : Hash512} {l : List HtableEl} {el : HtableEl} {bt : Htable}
    (hadd : Added s.vol.bt l fhash el bt) :
    VolBelow V (u + env.csize V) (inserted V j env cchk fhash el bt s) where
  entries := by
    obtain ⟨i, hi, rfl⟩ := hg.table.exists_slot hadd.inRange
    have hv := V.volsize_lt
    have hlt := (hg.reserve hres).2.2
    intro k hk
    have hmem := memEntry_addHentry hg.table
      (fun e => fileHentry e V.hlen fhash cchk env.stSize env.timestamp j)
      (show ({ (Admin.reserve V env cchk s).vol with bt := bt } : VolInfo).htableChunkCache = _ from rfl)
      rfl hi hk
    split at hmem
    · apply EntryBelow.congr _ hmem
      exact entryBelow_file (by omega) (Nat.add_le_add_right (hres.le h) _)
    · exact ((h.entries k hk).mono (Nat.le_add_right _ _)).congr hmem
  areas := h.reserve hres

/-- Adding a file moves the end of what is in use by its chunks at most, also if it fails. -/
theorem Effect.below {r : Int × Session} (he : Effect V lib s (.addObj j env) r) (hg : Good V s.vol s.disk)
    (h : VolBelow V u s.vol) : VolBelow V (u + env.csize V) r.2.vol := by
  cases he with
  | same _ => exact h.mono (Nat.le_add_right _ _)
  | @undone _ _ cchk ret cancel hres _ _ =>
      obtain ⟨al, hal⟩ := releaseContainer_parts { reserve V env cchk s with cancel := cancel } cchk
        (env.csize V)
      have hbelow := @release_below _ { reserve V env cchk s with cancel := cancel } cchk (env.csize V)
        (h.reserve hres)
      rw [hal] at hbelow ⊢
      exact ⟨(h.mono (Nat.le_add_right _ _)).entries, hbelow⟩
  | @copyFailed _ _ cchk fhash buf l el bt ret d cancel hres _ hadd _ _ =>
      have hins := @VolBelow.inserted V u s j env cchk h hg hres fhash l el bt hadd
      obtain ⟨al, hal⟩ := releaseContainer_parts ⟨Admin.inserted V j env cchk fhash el bt s, d, cancel⟩ cchk
        (env.csize V)
      have hbelow := @release_below _ ⟨Admin.inserted V j env cchk fhash el bt s, d, cancel⟩ cchk (env.csize V)
        hins.areas
      rw [hal] at hbelow ⊢
      exact ⟨hins.entries, hbelow⟩
  | added hres _ hadd _ _ => exact h.inserted hg hres hadd

end Add

/-! ## A mount -/

theorem registerContainers_below {mem : Nat → Bool} {els : List HtableEl} {al : Alist}
    (h : ∀ a ∈ al.entries, a.stop ≤ u)
    (hels : ∀ el ∈ els, (v.hentry el).chunk + containerLen V (v.hentry el) ≤ u) :
    ∀ a ∈ (registerContainers V v mem els al).entries, a.stop ≤ u := by
  unfold registerContainers
  generalize 0 = n
  induction els generalizing al n with
  | nil => exact h
  | cons el els ih =>
      apply ih
      · exact register_below h (hels el List.mem_cons_self)
      · exact fun x hx => hels x (List.mem_cons_of_mem el hx)

/-- The areas of the label and the table end with the tables. -/
theorem tableAreas_stop {a : Aentry} (ha : a ∈ V.tableAreas) : 2 ≤ a.stop ∧ a.stop ≤ V.tablesEnd := by
  unfold Volume.tableAreas at ha
  unfold Volume.tablesEnd
  obtain rfl | ha := List.mem_cons.1 ha
  · exact ⟨Nat.le_refl 2, Nat.le_add_right 2 _⟩
  obtain rfl | ha := List.mem_cons.1 ha
  · refine ⟨Nat.le_add_right 2 _, ?_⟩
    show 2 + V.htableLen ≤ _
    split <;> omega
  · split at ha
    · rename_i hb
      rw [List.mem_singleton.1 ha, if_pos hb]
      exact ⟨Nat.le_add_right 2 _, Nat.le_refl _⟩
    · cases ha

theorem mountShfs_below {env : MountEnv} {d : Members} (hio : env.Complete)
    (hm : mountShfs V env d = .ok v) (htables : V.tablesEnd ≤ u)
    (hd : ∀ i < V.conf.htableNbEntries, EntryBelow V u (V.diskEntry d i)) : VolBelow V u v := by
  obtain ⟨hm, al, -, -, hent, hal⟩ := mountShfs_spec hio hm
  constructor
  case entries => exact fun i hi => (hd i hi).congr (hm.cached _ (V.chunkNo_lt hi)).entry
  case areas =>
      rw [hal]
      apply registerContainers_below
      · rw [hent]
        exact fun a ha => Nat.le_trans (tableAreas_stop ha).2 htables
      · intro el hel
        obtain ⟨l, hl⟩ := hm.table.listed
        rw [foreachHtableEl_eq hl] at hel
        obtain ⟨hin, hused⟩ := (hl.mem el).1 hel
        obtain ⟨i, hi, rfl⟩ := hm.table.exists_slot hin
        rw [hm.table.isFree_slot hi] at hused
        exact ((hd i hi).congr (hm.entry hi) hused).2

end Below

/-! ## Runs -/

section Run

variable {V : Volume} {lib : MhashLib} {u : Nat} {s t : Sys} {e : Event}

/-- A step moves the end of what is in use by the chunks of the file it adds. -/
theorem filled_step (hs : s.Filled V u) (honly : OnlyAdds e) (h : (sessions V lib).Step s e t) :
    t.Filled V (u + V.chunksOf (addedSize e)) := by
  have hmount : MountOk V s e := by
    cases e with
    | mount env =>
        intro i hi hz hl
        rw [(hs.disk i hi hz).1] at hl
        cases hl
    | token a => trivial
    | umount env => trivial
  have hok : t.Ok V := ok_step hs.ok hmount (sessions_step.1 h).2.table (sessions_step.1 h).1
  obtain ⟨⟨hen, hio⟩, hnext⟩ := h
  cases e with
  | mount env =>
      obtain rfl | ⟨v, hv, rfl⟩ := mount_cases hnext
      · exact ⟨hok, hs.tables, hs.disk, Sys.holds_none _⟩
      · exact ⟨hok, hs.tables, hs.disk, Sys.holds_some (mountShfs_below hio hv hs.tables hs.disk)⟩
  | token a =>
      obtain ⟨j, env, rfl⟩ := honly
      obtain ⟨v, hv⟩ := hen
      have hg := hs.ok.session v false hv
      have hle := Nat.le_add_right u (V.chunksOf (addedSize (.token (.addObj j env))))
      have htables := Nat.le_trans hs.tables hle
      obtain rfl | ⟨ret, s', heff, rfl⟩ := token_effect hv hg.table hnext
      · exact ⟨hok, htables, fun i hi => (hs.disk i hi).mono hle, Sys.holds_none _⟩
      · refine ⟨hok, htables, fun i hi => ?_, Sys.holds_some (heff.below hg (hs.session v false hv))⟩
        exact ((hs.disk i hi).mono hle).congr ((heff.sameTables hg).entry hi)
  | umount env =>
      obtain ⟨v, c, hv, rfl⟩ := umount_cases hen hnext
      refine ⟨hok, hs.tables, fun i hi => ?_, Sys.holds_none _⟩
      obtain ⟨cut, -, hent⟩ := umount_entries hio (show umountShfs V env v s.disk = (_, _) from rfl)
      have hi' := hent i hi
      split at hi'
      · exact ((hs.session v c hv).entries i hi).congr hi'
      · exact (hs.disk i hi).congr hi'

/-- A run moves it by the chunks of all files that it adds. -/
theorem filled_of_run {es : List Event} (h : (sessions V lib).Run s es t) (hs : s.Filled V u)
    (honly : ∀ e ∈ es, OnlyAdds e) : t.Filled V (u + V.chunksOf (addedSizes es)) := by
  induction h generalizing u with
  | nil s => exact hs
  | @cons s s' t e es h1 _ ih =>
      have hstep := filled_step hs (honly e List.mem_cons_self) h1
      have hrest := ih hstep fun x hx => honly x (List.mem_cons_of_mem e hx)
      have hsum : V.chunksOf (addedSizes (e :: es)) =
          V.chunksOf (addedSize e) + V.chunksOf (addedSizes es) := V.chunksOf_append _ _
      rw [hsum, ← Nat.add_assoc]
      exact hrest

theorem Formatted.filled {d : Members} (h : Formatted V d) : (⟨d, none⟩ : Sys).Filled V V.tablesEnd where
  ok := h.ok
  tables := Nat.le_refl _
  disk := fun i hi hz => by
    rw [h.unused hi] at hz
    cases hz
  session := Sys.holds_none d

/-- There is room for a file of `n` bytes in a session of a volume to which files were only added, if its
chunks fit behind those of all files that were tried. -/
theorem room_of_adds {d₀ : Members} {es : List Event} {v : VolInfo} {c : Bool} {n : Nat}
    (hd₀ : Formatted V d₀) (hrun : (sessions V lib).Run ⟨d₀, none⟩ es s)
    (honly : ∀ e ∈ es, OnlyAdds e) (hv : s.session = some (v, c))
    (hfit : V.tablesEnd + V.chunksOf (addedSizes es) + divRoundUp n V.chunksize ≤ V.volsize)
    (hroom : 0 < divRoundUp n V.chunksize ∨ V.tablesEnd + V.chunksOf (addedSizes es) < V.volsize) :
    (findContainer V v.al (divRoundUp n V.chunksize)).isSome := by
  have hfilled := filled_of_run hrun hd₀.filled honly
  have hg := (hfilled.ok.session v c hv).guarded
  have hbelow := (hfilled.session v c hv).areas
  obtain ⟨rest, hrest, hall⟩ := hg.areas
  have hpos : ∀ a ∈ v.al.entries, 0 < a.stop := by
    intro a ha
    rw [hrest] at ha
    obtain ha | ha := List.mem_append.1 ha
    · exact Nat.lt_of_lt_of_le Nat.two_pos (tableAreas_stop ha).1
    · have hstart := hall a ha
      have hlast : 2 ≤ V.lastTable := Nat.le_add_right _ _
      omega
  have hne : v.al.entries ≠ [] := by
    rw [hrest]
    exact fun h => by cases h
  have hstop := hg.stop
  have hfind := findFree_pos hg.allocator (by rw [hstop]; exact V.volsize_lt) (by rw [hstop]; exact hfit)
    (by rw [hstop]; exact hroom) hne fun a ha => ⟨hpos a ha, hbelow a ha⟩
  have hle := @findFree_le v.al (divRoundUp n V.chunksize) _ hbelow
  unfold findContainer
  simp only
  rw [if_neg (by omega)]
  rfl

/-- A volume that ends with its tables has no container for anything. -/
theorem full_no_container {v : VolInfo} {d : Members} {env : MountEnv} (hd : Formatted V d)
    (hio : env.Complete) (hm : mountShfs V env d = .ok v) (hfull : V.volsize = V.tablesEnd) {len : Nat} (hl : len ≤ 2 ^ 52) :
    findContainer V v.al len = none := by
  have hg := (mountShfs_good hio hm hd.ok.disk hd.linksBehind).guarded
  cases hf : findContainer V v.al len with
  | none => rfl
  | some cchk =>
      obtain ⟨hlo, hhi⟩ := hg.container hl hf
      omega

end Run

end Minipython.Tools.Admin
