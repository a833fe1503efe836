/-
# Minipython.Tools.Containers — the containers of files keep apart (shfs_admin.c, shfs_alloc.c)

`Separate` says of a table that the containers of its files lie in the volume and that they, the label and
the table regions are pairwise apart. `Stored` is why a session keeps it so: every container of a file is
an area of the allocator list, whose areas are apart and lie in the volume, and first fit then finds an
area that is apart from all of them.

A mount registers what a link has in the place of a container, and neither a mount nor `actn_addfile`
tests whether a registration failed. `Fitting` is the condition on both.

A run may have any tokens, mounts and unmounts, and begins on a formatted volume. It is one of `sessions`,
where a transfer of the members is complete or fails, and `NoIoError` asks that those of `add-obj` and of an
unmount do not fail; everything else may. `stored_step` is the step; a token goes through its `Effect`, and
the three that touch a container are reserving, inserting and giving back.

`link_breaks_containers` is a way to lose it: a link whose host has a name of one letter, and in the next
session a file that is put at the last chunk of the volume and ends behind it.
-/
import Minipython.Tools.Coherence
import Minipython.Tools.Filling
import Minipython.Tools.FirstFit

namespace Minipython.Tools.Admin

open Minipython.Lib
open Minipython.Lib.Extent
open Minipython.Shfs
open Htable

/-! ## Selections from a list -/

section Select

variable {α β : Type} {f g : α → Option β} {l : List α}

/-- What two selections share that differ at one place. -/
theorem filterMap_change {a : α} [DecidableEq α] (ha : a ∈ l) (hnd : l.Nodup)
    (hfg : ∀ x ∈ l, x ≠ a → g x = f x) :
    ∃ others, (l.filterMap f).Perm ((f a).toList ++ others) ∧
      (l.filterMap g).Perm ((g a).toList ++ others) := by
  have hcons : ∀ h : α → Option β, (l.filterMap h).Perm ((h a).toList ++ (l.erase a).filterMap h) := by
    intro h
    refine ((List.perm_cons_erase ha).filterMap h).trans (List.Perm.of_eq ?_)
    rw [List.filterMap_cons]
    cases h a with
    | none => rfl
    | some b => rfl
  refine ⟨(l.erase a).filterMap f, hcons f, ?_⟩
  have heq : (l.erase a).filterMap f = (l.erase a).filterMap g := by
    apply List.filterMap_congr
    intro x hx
    exact (hfg x (List.mem_of_mem_erase hx) fun hxa => hnd.not_mem_erase (hxa ▸ hx)).symm
  rw [heq]
  exact hcons g

theorem filterMap_sublist (h : ∀ x ∈ l, ∀ y, f x = some y → g x = some y) :
    (l.filterMap f).Sublist (l.filterMap g) := by
  induction l with
  | nil => exact .slnil
  | cons x l ih =>
      have ih := ih fun z hz => h z (List.mem_cons_of_mem x hz)
      rw [List.filterMap_cons, List.filterMap_cons]
      cases hf : f x with
      | some y =>
          rw [h x List.mem_cons_self y hf]
          exact ih.cons_cons y
      | none =>
          cases g x with
          | none => exact ih
          | some z => exact ih.cons z

end Select

/-! ## Containers -/

/-- An entry in use that is no link. -/
def isFile (V : Volume) (e : Hentry) : Bool := !hashIsZero e V.hlen && !e.isLink

/-- The container of an entry, in numbers that do not wrap. -/
def extent (V : Volume) (e : Hentry) : Aentry :=
  ⟨e.chunk, e.chunk + (e.offset + e.len + V.chunksize - 1) / V.chunksize⟩

def fileExtent (V : Volume) (e : Hentry) : Option Aentry := if isFile V e then some (extent V e) else none

/-- The containers of the files in a table. -/
def Volume.containers (V : Volume) (ent : Nat → Hentry) : List Aentry :=
  (List.range V.conf.htableNbEntries).filterMap fun i => fileExtent V (ent i)

/-- The containers of the files are apart from each other and from the label and the table regions, and
lie in the volume. -/
structure Separate (V : Volume) (ent : Nat → Hentry) : Prop where
  packed : Packed (V.tableAreas ++ V.containers ent)
  inside : ∀ a ∈ V.containers ent, a.stop ≤ V.volsize

section Extents

variable {V : Volume} {e e' : Hentry} {ent ent' : Nat → Hentry} {i : Nat}

theorem isFile_iff : isFile V e = true ↔ hashIsZero e V.hlen = false ∧ e.isLink = false := by
  unfold isFile
  rw [Bool.and_eq_true, Bool.not_eq_true', Bool.not_eq_true']

theorem fileExtent_some {a : Aentry} (h : fileExtent V e = some a) : isFile V e = true ∧ a = extent V e := by
  unfold fileExtent at h
  split at h
  · rename_i hf
    exact ⟨hf, (Option.some.inj h).symm⟩
  · cases h

theorem fileExtent_none (h : hashIsZero e V.hlen = true ∨ e.isLink = true) : fileExtent V e = none := by
  unfold fileExtent
  rw [if_neg]
  intro hf
  obtain ⟨hz, hl⟩ := isFile_iff.1 hf
  rcases h with h | h
  · rw [hz] at h
    cases h
  · rw [hl] at h
    cases h

/-- The container of a file is what the tools compute. -/
theorem extent_eq (h : FileOk V e) : extent V e = container V e := by
  have hlen := h.len
  have hle := containerLen_le V e
  have hin := h.inside
  have hv := V.volsize_le
  have hcs := V.chunksize_bounds
  have hcount : containerLen V e = (e.offset + e.len + V.chunksize - 1) / V.chunksize := by
    have hbytes : wrap64 e.len = e.len := wrap64_of_lt (by simp only [u64Size]; omega)
    have hround : wrap64 (e.len + V.chunksize - 1) = e.len + V.chunksize - 1 :=
      wrap64_of_lt (by simp only [u64Size]; omega)
    unfold containerLen divRoundUp
    rw [h.offset, Nat.zero_add, hbytes, hround]
  unfold extent container aentryOf
  rw [← hcount, wrap64_of_lt]
  simp only [u64Size]
  omega

theorem fileExtent_congr (h : SameHentry e' e) : fileExtent V e' = fileExtent V e := by
  obtain ⟨hc, ho, hn⟩ := h.attrs
  unfold fileExtent isFile extent
  rw [hashIsZero_congr (h.sameHash V.hlen_le), h.isLink, hc, ho, hn]

theorem containers_congr (h : ∀ i < V.conf.htableNbEntries, SameHentry (ent' i) (ent i)) :
    V.containers ent' = V.containers ent :=
  List.filterMap_congr fun i hi => fileExtent_congr (h i (List.mem_range.1 hi))

theorem mem_containers {a : Aentry} : a ∈ V.containers ent ↔
    ∃ i < V.conf.htableNbEntries, isFile V (ent i) = true ∧ a = extent V (ent i) := by
  unfold Volume.containers
  rw [List.mem_filterMap]
  constructor
  · rintro ⟨i, hi, ha⟩
    exact ⟨i, List.mem_range.1 hi, fileExtent_some ha⟩
  · rintro ⟨i, hi, hf, rfl⟩
    exact ⟨i, List.mem_range.2 hi, if_pos hf⟩

theorem Separate.congr (h : Separate V ent)
    (hs : ∀ i < V.conf.htableNbEntries, SameHentry (ent' i) (ent i)) : Separate V ent' := by
  have heq := containers_congr hs
  exact ⟨heq ▸ h.packed, heq ▸ h.inside⟩

/-- The containers before and after a change of one entry. -/
theorem containers_change (hi : i < V.conf.htableNbEntries)
    (h : ∀ j < V.conf.htableNbEntries, j ≠ i → SameHentry (ent' j) (ent j)) :
    ∃ others, (V.containers ent).Perm ((fileExtent V (ent i)).toList ++ others) ∧
      (V.containers ent').Perm ((fileExtent V (ent' i)).toList ++ others) :=
  filterMap_change (List.mem_range.2 hi) List.nodup_range
    fun j hj hji => fileExtent_congr (h j (List.mem_range.1 hj) hji)

end Extents

/-- The containers before and after an edit of an entry in memory. -/
theorem containers_addHentry {V : Volume} {v w : VolInfo} {f : Hentry → Hentry} {i : Nat} (ht : Table V v)
    (hc : w.htableChunkCache = v.htableChunkCache) (hb : w.bentry = v.bentry)
    (hi : i < V.conf.htableNbEntries) : ∃ others,
      (V.containers (V.memEntry v)).Perm ((fileExtent V (V.memEntry v i)).toList ++ others) ∧
      (V.containers (V.memEntry (addHentry w (v.slot i) f))).Perm
        ((fileExtent V (f (V.memEntry v i))).toList ++ others) := by
  have hmem : ∀ j < V.conf.htableNbEntries, SameHentry (V.memEntry (addHentry w (v.slot i) f) j)
      (if j = i then f (V.memEntry v i) else V.memEntry v j) := fun j hj =>
    memEntry_addHentry ht f hc hb hi hj
  have hself := hmem i hi
  rw [if_pos rfl] at hself
  obtain ⟨others, hbefore, hafter⟩ := @containers_change V (V.memEntry v)
    (V.memEntry (addHentry w (v.slot i) f)) i hi fun j hj hji => by
      have hj' := hmem j hj
      rwa [if_neg hji] at hj'
  rw [fileExtent_congr hself] at hafter
  exact ⟨others, hbefore, hafter⟩

/-- An edit that keeps the container keeps all of them. -/
theorem containers_kept {V : Volume} {v w : VolInfo} {f : Hentry → Hentry} {i : Nat} (ht : Table V v)
    (hc : w.htableChunkCache = v.htableChunkCache) (hb : w.bentry = v.bentry)
    (hi : i < V.conf.htableNbEntries)
    (hf : fileExtent V (f (V.memEntry v i)) = fileExtent V (V.memEntry v i)) :
    (V.containers (V.memEntry (addHentry w (v.slot i) f))).Perm (V.containers (V.memEntry v)) := by
  obtain ⟨others, hbefore, hafter⟩ := @containers_addHentry V v w f i ht hc hb hi
  rw [hf] at hafter
  exact hafter.trans hbefore.symm

/-! ## The allocator list -/

/-- The areas of the allocator list are apart and lie in the volume, and those of the label, the table
regions and the files are among them. -/
structure Stored (V : Volume) (v : VolInfo) : Prop where
  packed : Packed v.al.entries
  inside : Inside V.volsize v.al.entries
  listed : (V.tableAreas ++ V.containers (V.memEntry v)).Subperm v.al.entries

section List

variable {V : Volume} {v w : VolInfo} {d : Members} {s : Session} {env : AddEnv} {cchk : Nat}

theorem Stored.separate (h : Stored V v) : Separate V (V.memEntry v) :=
  ⟨h.packed.subperm h.listed, fun a ha => (h.inside a (h.listed.subset (List.mem_append_right _ ha))).2⟩

/-- The list and the entries of two volumes may differ in their order and in what is no file. -/
theorem Stored.congr (h : Stored V v) (hal : w.al.entries.Perm v.al.entries)
    (hent : (V.containers (V.memEntry w)).Perm (V.containers (V.memEntry v))) : Stored V w where
  packed := h.packed.perm hal.symm
  inside := fun a ha => h.inside a (hal.mem_iff.1 ha)
  listed := by
    have hall := (hent.append_left V.tableAreas).subperm_right.2 h.listed
    exact hal.symm.subperm_left.1 hall

/-- The label is on the list. -/
theorem Stored.zero (h : Stored V v) : ∃ e ∈ v.al.entries, e.start = 0 ∧ 0 < e.stop :=
  ⟨⟨0, 2⟩, h.listed.subset List.mem_cons_self, rfl, Nat.two_pos⟩

theorem Good.ffList (hg : Good V v d) (h : Stored V v) : FfList V.volsize v.al :=
  ⟨hg.guarded.stop, hg.guarded.allocator, hg.guarded.sorted, h.inside⟩

/-- First fit finds a container that lies in the volume and is apart from all areas. -/
theorem Stored.found (h : Stored V s.vol) (hg : Good V s.vol s.disk) (hres : Reserves V env s cchk) :
    cchk + env.csize V ≤ V.volsize ∧ FreeAt s.vol.al.entries cchk (env.csize V) := by
  have hans := findFree_packed (hg.ffList h) V.volsize_lt h.packed h.zero (env.csize V)
  have hfound := hres.found
  unfold findContainer at hfound
  simp only at hfound
  split at hfound
  · cases hfound
  · rename_i hno
    obtain rfl := Option.some.inj hfound
    have hf := hans.1 fun h0 => hno (.inl h0)
    exact ⟨hf.inside, hf.free⟩

/-- The list behind the reservation. -/
theorem reserve_entries (hmem : env.regMem = true) (hle : cchk + env.csize V ≤ V.volsize) :
    (reserve V env cchk s).vol.al.entries.Perm (⟨cchk, cchk + env.csize V⟩ :: s.vol.al.entries) := by
  have hv := V.volsize_lt
  have harea : aentryOf cchk (env.csize V) = ⟨cchk, cchk + env.csize V⟩ := by
    unfold aentryOf
    rw [wrap64_of_lt (by omega)]
  show (shfsAlistRegister s.vol.al env.regMem cchk (env.csize V)).2.entries.Perm _
  rw [hmem, register_entries, harea]
  exact insertByStart_perm _ _

/-- A reservation that is given back leaves the list as it was, up to the order. -/
theorem release_reserve {cancel : Bool} (hmem : env.regMem = true) :
    (releaseContainer { reserve V env cchk s with cancel := cancel } cchk (env.csize V)).vol.al.entries.Perm
      s.vol.al.entries := by
  obtain ⟨al, hal, hperm, -⟩ := unregister_register s.vol.al cchk (env.csize V)
  have hun : shfsAlistUnregister (reserve V env cchk s).vol.al cchk (env.csize V) = some al := by
    show shfsAlistUnregister (shfsAlistRegister s.vol.al env.regMem cchk (env.csize V)).2 _ _ = _
    rw [hmem]
    exact hal
  unfold releaseContainer
  simp only [hun]
  exact hperm

/-- A new file takes the container that was found. -/
theorem extent_file {e : Hentry} {fhash : Hash512} {now : Nat} {j : Token} (hc : cchk < u64Size) :
    extent V (fileHentry e V.hlen fhash cchk env.stSize now j) = ⟨cchk, cchk + env.csize V⟩ := by
  have hsize := env.stSize_lt
  have hcs := V.chunksize_bounds
  obtain ⟨hchunk, hoff, hlen⟩ := @fileHentry_container e V.hlen cchk env.stSize now fhash j hc
    (Nat.lt_trans hsize (by decide))
  unfold extent AddEnv.csize divRoundUp
  rw [hchunk, hoff, hlen, Nat.zero_add, wrap64_of_lt]
  simp only [u64Size]
  omega

/-- The list and the table behind the insertion of a file. -/
theorem Stored.inserted (h : Stored V s.vol) (hg : Good V s.vol s.disk) (hres : Reserves V env s cchk)
    (hmem : env.regMem = true) {j : Token} {fhash : Hash512} {l : List HtableEl} {el : HtableEl}
    {bt : Htable} (hadd : Added s.vol.bt l fhash el bt) : Stored V (inserted V j env cchk fhash el bt s) := by
  obtain ⟨hle, hfree⟩ := h.found hg hres
  obtain ⟨-, -, hlt⟩ := hg.reserve hres
  have hv := V.volsize_lt
  have hal : (Admin.inserted V j env cchk fhash el bt s).al.entries.Perm
      (⟨cchk, cchk + env.csize V⟩ :: s.vol.al.entries) := reserve_entries hmem hle
  obtain ⟨i, hi, rfl⟩ := hg.table.exists_slot hadd.inRange
  obtain ⟨others, hbefore, hafter⟩ := @containers_addHentry V s.vol
    { (Admin.reserve V env cchk s).vol with bt := bt }
    (fun e => fileHentry e V.hlen fhash cchk env.stSize env.timestamp j) i hg.table rfl rfl hi
  -- the slot was free, and holds the file now
  have hnone : fileExtent V (V.memEntry s.vol i) = none := by
    apply fileExtent_none
    have hfree := hadd.free
    rw [hg.table.isFree_slot hi, hg.table.hentry_eq hi] at hfree
    exact .inl hfree
  have hfile :
      isFile V (fileHentry (V.memEntry s.vol i) V.hlen fhash cchk env.stSize env.timestamp j) = true := by
    refine isFile_iff.2 ⟨?_, ?_⟩
    · have hnz := hadd.nonzero
      rw [hg.table.hlen] at hnz
      rw [hashIsZero_congr (fileHentry_hash V.hlen_le)]
      exact hnz
    · unfold Hentry.isLink
      rw [fileHentry_flags]
      rfl
  rw [hnone] at hbefore
  simp only [fileExtent, if_pos hfile, extent_file (by omega : cchk < u64Size)] at hafter
  have hcont : (V.containers (V.memEntry (Admin.inserted V j env cchk fhash (s.vol.slot i) bt s))).Perm
      (⟨cchk, cchk + env.csize V⟩ :: V.containers (V.memEntry s.vol)) :=
    hafter.trans (hbefore.symm.cons _)
  constructor
  case packed => exact (h.packed.cons hfree).perm hal.symm
  case inside =>
      intro a ha
      rcases List.mem_cons.1 (hal.mem_iff.1 ha) with rfl | ha
      · exact ⟨Nat.le_add_right _ _, hle⟩
      · exact h.inside a ha
  case listed =>
      apply hal.symm.subperm_left.1
      refine ((hcont.append_left V.tableAreas).trans List.perm_middle).subperm_right.2 ?_
      exact (List.subperm_cons _).2 h.listed

end List

/-! ## A token -/

/-- The transfers of an event go through. `umount_shfs` ends the process on the first that does not. -/
def NoIoError (V : Volume) (s : Sys) : Event → Prop
  | .token (.addObj _ env) => env.copySeek = true ∧ (∀ c < env.csize V, (env.copyRead c).isSome = true) ∧
      ∀ p ∈ s.session, ∀ cchk ∈ findContainer V p.1.al (env.csize V), ∀ c < env.csize V,
        ∀ r ∈ syncIoRequests V.g (wrap64 (cchk + c)) 1, (env.io c).ok r = true
  | .umount env => ∀ p ∈ s.session, (umountShfs V env p.1 s.disk).1 = true
  | _ => True

instance (V : Volume) (s : Sys) : (e : Event) → Decidable (NoIoError V s e)
  | .token (.addObj _ env) => inferInstanceAs (Decidable (env.copySeek = true ∧
      (∀ c < env.csize V, (env.copyRead c).isSome = true) ∧
      ∀ p ∈ s.session, ∀ cchk ∈ findContainer V p.1.al (env.csize V), ∀ c < env.csize V,
        ∀ r ∈ syncIoRequests V.g (wrap64 (cchk + c)) 1, (env.io c).ok r = true))
  | .umount env => inferInstanceAs (Decidable (∀ p ∈ s.session, (umountShfs V env p.1 s.disk).1 = true))
  | .mount _ | .token (.addLnk _ _) | .token (.rmObj _) | .token (.setDefault _) | .token .clearDefault =>
      .isTrue trivial

section Token

variable {V : Volume} {lib : MhashLib} {s : Session} {a : Action} {r : Int × Session} {env : AddEnv}
  {cchk : Nat}

theorem writeStripes_ok {buf : Bytes} {io : Transfers} {rs : List IoRequest} {d : Members}
    (h : ∀ r ∈ rs, io.ok r = true) : (writeStripes buf io rs d).1 = true := by
  induction rs generalizing d with
  | nil => rfl
  | cons r rs ih =>
      rw [writeStripes, if_pos (h r List.mem_cons_self)]
      exact ih fun x hx => h x (List.mem_cons_of_mem r hx)

/-- Without an error the copy is complete or cancelled. -/
theorem copyFile_done {n c left pos : Nat} {buf : Bytes} {d : Members}
    (hread : ∀ i, c ≤ i → i < c + n → (env.copyRead i).isSome = true)
    (hwrite : ∀ i, c ≤ i → i < c + n → ∀ r ∈ syncIoRequests V.g (wrap64 (cchk + i)) 1,
      (env.io i).ok r = true) :
    (copyFile V env cchk n c left pos buf d).1 = 0 ∨ (copyFile V env cchk n c left pos buf d).1 = -2 := by
  induction n generalizing c left pos buf d with
  | zero => exact .inl rfl
  | succ n ih =>
      rw [copyFile]
      split
      · exact .inl rfl
      · simp only
        split
        · rename_i hnone
          have hsome := hread c (Nat.le_refl c) (by omega)
          rw [hnone] at hsome
          cases hsome
        · split
          · rename_i hfail
            have hok := congrArg Prod.fst hfail
            unfold syncWriteChunk at hok
            rw [writeStripes_ok (hwrite c (Nat.le_refl c) (by omega))] at hok
            cases hok
          · split
            · exact .inr rfl
            · exact ih (fun i hci hi => hread i (by omega) (by omega)) fun i hci hi =>
                hwrite i (by omega) (by omega)

/-- `actn_addfile` returns `-2` only when it has seen an abort signal. -/
theorem addfile_cancelled {j : Token} (h : actnAddfile V lib j env s = .ok r) (hret : r.1 = -2) :
    r.2.cancel = true := by
  have hne : (-1 : Int) ≠ -2 := by decide
  have hrelease : ∀ (t : Session) c n, (releaseContainer t c n).cancel = t.cancel := by
    intro t c n
    obtain ⟨al, hal⟩ := releaseContainer_parts t c n
    rw [hal]
  have hor : ∀ (b : Bool) (ret : Int), ret = -2 → (b || ret == -2) = true := by
    rintro b ret rfl
    cases b with
    | false => rfl
    | true => rfl
  have hadd : ∀ cchk csize t q, addReserved V lib j env cchk csize t = .ok q → q.1 = -2 →
      q.2.cancel = true := by
    intro cchk csize t q hq hret
    unfold addReserved at hq
    split at hq
    · obtain rfl := Except.ok.inj hq
      exact absurd hret hne
    · obtain ⟨x, -, hq⟩ := ok_of_bind hq
      split at hq
      · obtain rfl := Except.ok.inj hq
        exact hor _ _ hret
      · split at hq
        · obtain rfl := Except.ok.inj hq
          exact absurd hret hne
        · obtain ⟨y, -, hq⟩ := ok_of_bind hq
          split at hq
          · obtain rfl := Except.ok.inj hq
            exact absurd hret hne
          · obtain rfl := Except.ok.inj hq
            unfold insertFile at hret ⊢
            split at hret
            · rename_i hseek
              rw [if_pos hseek]
              exact hor _ _ hret
            · exact absurd hret hne
  unfold actnAddfile at h
  split at h
  · obtain rfl := Except.ok.inj h
    exact absurd hret hne
  split at h
  · obtain rfl := Except.ok.inj h
    exact absurd hret hne
  split at h
  · obtain rfl := Except.ok.inj h
    exact absurd hret hne
  simp only at h
  split at h
  · obtain rfl := Except.ok.inj h
    exact absurd hret hne
  · obtain ⟨q, hq, h⟩ := ok_of_bind h
    obtain rfl := Except.ok.inj h
    split at hret
    · rename_i hneg
      rw [if_pos hneg, hrelease]
      exact hadd _ _ _ q hq hret
    · rename_i hneg
      rw [if_neg hneg]
      exact hadd _ _ _ q hq hret

theorem isFile_mapFlags {e : Hentry} {f : UInt8 → UInt8}
    (hf : ∀ x, f x &&& shfsEflagLink = x &&& shfsEflagLink) :
    fileExtent V (mapFlags f e) = fileExtent V e := by
  have hlink : (mapFlags f e).isLink = e.isLink := by
    unfold Hentry.isLink
    rw [mapFlags_flags, hf]
  have hword : ∀ off, off + 8 ≤ 180 → Bytes.le (mapFlags f e) off 8 = Bytes.le e off 8 :=
    fun off hoff => Bytes.le_putLe_disjoint (.inl hoff)
  have hchunk : (mapFlags f e).chunk = e.chunk := hword 64 (by decide)
  have hoff : (mapFlags f e).offset = e.offset := hword 72 (by decide)
  have hlen : (mapFlags f e).len = e.len := hword 80 (by decide)
  unfold fileExtent isFile extent
  rw [hashIsZero_congr (mapFlags_hash f e), hlink, hchunk, hoff, hlen]

theorem Stored.clearDefault (h : Stored V s.vol) (ht : Table V s.vol) : Stored V (clearDefault s.vol) := by
  unfold Admin.clearDefault
  cases hdef : s.vol.defBentry with
  | none => exact h
  | some el =>
      obtain ⟨i, hi, rfl⟩ := ht.exists_slot (ht.dflt el hdef)
      exact h.congr (List.Perm.refl _)
        (containers_kept ht rfl rfl hi (isFile_mapFlags fun x => (default_keeps_link x).2))

/-- Without a failed registration and without an I/O error an action keeps the list and the table together,
but for the abort of a copy: the entry stays then, but its container is given back. -/
theorem Effect.stored (he : Effect V lib s a r) (hg : Good V s.vol s.disk) (h : Stored V s.vol)
    (hmem : ∀ j env, a = .addObj j env → env.regMem = true)
    (hio : NoIoError V ⟨s.disk, some (s.vol, s.cancel)⟩ (.token a)) :
    Stored V r.2.vol ∨ (r.1 = -2 ∧ (∃ j env, a = .addObj j env) ∧ Separate V (V.memEntry r.2.vol)) := by
  have ht := hg.table
  have hentry : ∀ {i}, i < V.conf.htableNbEntries → s.vol.hentry (s.vol.slot i) = V.memEntry s.vol i :=
    fun hi => ht.hentry_eq hi
  cases he with
  | same _ => exact .inl h
  | @undone j env cchk ret cancel hres _ _ =>
      have hperm := @release_reserve V s env cchk cancel (hmem j env rfl)
      obtain ⟨al, hal⟩ := releaseContainer_parts { reserve V env cchk s with cancel := cancel } cchk
        (env.csize V)
      rw [hal] at hperm ⊢
      exact .inl (h.congr hperm (List.Perm.refl _))
  | @copyFailed j env cchk fhash buf l el bt ret d cancel hres _ hadd hcopy hret =>
      have hins := @Stored.inserted V s env cchk h hg hres (hmem j env rfl) j fhash l el bt hadd
      obtain ⟨hseek, hread, hwrite⟩ := hio
      unfold Copied at hcopy
      rw [if_pos hseek] at hcopy
      have hdone := @copyFile_done V env cchk (env.csize V) 0 env.stSize 0 buf s.disk
        (fun i _ hi => hread i (by omega)) fun i _ hi => hwrite _ rfl cchk hres.found i (by omega)
      rw [hcopy] at hdone
      obtain ⟨al, hal⟩ := releaseContainer_parts ⟨Admin.inserted V j env cchk fhash el bt s, d, cancel⟩ cchk
        (env.csize V)
      rw [hal]
      refine .inr ⟨hdone.resolve_left fun h0 => ?_, ⟨j, env, rfl⟩, hins.separate⟩
      have hzero : ret = 0 := h0
      omega
  | @added j env cchk fhash buf l el bt ret d cancel hres _ hadd _ _ =>
      exact .inl (h.inserted hg hres (hmem j env rfl) hadd)
  | @linked j env u rhost fhash l el bt _ _ _ hadd =>
      obtain ⟨i, hi, rfl⟩ := ht.exists_slot hadd.inRange
      refine .inl (h.congr (List.Perm.refl _) (containers_kept ht rfl rfl hi ?_))
      have hfree := hadd.free
      rw [ht.isFree_slot hi, hentry hi] at hfree
      rw [fileExtent_none (.inl hfree), fileExtent_none]
      right
      unfold Hentry.isLink
      rw [linkHentry_flags]
      rfl
  | removedLink _ hfound hlink =>
      obtain ⟨i, hi, rfl, -, -⟩ := ht.lookup_some hfound
      rw [hentry hi] at hlink
      refine .inl (h.congr (List.Perm.refl _) (containers_kept ht rfl rfl hi ?_))
      rw [fileExtent_none (.inl (hashIsZero_hashClear _ _)), fileExtent_none (.inr hlink)]
  | @removed j hash el al _ hfound hfile hal =>
      obtain ⟨i, hi, rfl, hused, -⟩ := ht.lookup_some hfound
      rw [ht.isFree_slot hi] at hused
      rw [hentry hi] at hused hfile hal
      have hfok := hg.files i hi hused hfile
      obtain ⟨hin, hent, -, -⟩ := unregister_some hal
      change al.entries = s.vol.al.entries.erase (container V (V.memEntry s.vol i)) at hent
      rw [← extent_eq hfok] at hent
      obtain ⟨others, hbefore, hafter⟩ := @containers_addHentry V s.vol
        { s.vol with bt := shfsBtableRmentry s.vol.bt hash, al := al }
        (fun e => hashClear e V.hlen) i ht rfl rfl hi
      rw [fileExtent_none (.inl (hashIsZero_hashClear _ _))] at hafter
      rw [fileExtent, if_pos (isFile_iff.2 ⟨hused, hfile⟩)] at hbefore
      have hlisted : (extent V (V.memEntry s.vol i) :: (V.tableAreas ++ others)).Subperm s.vol.al.entries := by
        refine (List.Perm.trans ?_ (hbefore.symm.append_left V.tableAreas)).subperm_right.2 h.listed
        exact List.perm_middle.symm
      have herase := hlisted.erase (extent V (V.memEntry s.vol i))
      rw [List.erase_cons_head, ← hent] at herase
      refine .inl ⟨?_, ?_, ?_⟩
      · show Packed al.entries
        rw [hent]
        exact h.packed.sublist List.erase_sublist
      · intro x hx
        change x ∈ al.entries at hx
        rw [hent] at hx
        exact h.inside x (List.mem_of_mem_erase hx)
      · exact (hafter.append_left V.tableAreas).subperm_right.2 herase
  | defaultCleared _ => exact .inl (h.clearDefault ht)
  | defaultSet _ hfound =>
      obtain ⟨i, hi, rfl, -, -⟩ := ht.lookup_some hfound
      have hslot : (Admin.clearDefault s.vol).slot i = s.vol.slot i := by
        unfold VolInfo.slot
        rw [clearDefault_bt]
      rw [← hslot]
      exact .inl ((h.clearDefault ht).congr (List.Perm.refl _)
        (containers_kept ht.cleared rfl rfl hi (isFile_mapFlags fun x => (default_keeps_link x).1)))

end Token

/-! ## A mount -/

/-- What a mount registers for the entry lies in the volume, behind the tables, and apart from what it
registers for any other. -/
def RangeFits (V : Volume) (d : Members) (i : Nat) : Prop :=
  V.tablesEnd ≤ (V.diskEntry d i).chunk ∧
    (V.diskEntry d i).chunk + containerLen V (V.diskEntry d i) ≤ V.volsize ∧
    ∀ j < V.conf.htableNbEntries, j ≠ i → hashIsZero (V.diskEntry d j) V.hlen = false →
      Apart (container V (V.diskEntry d i)) (container V (V.diskEntry d j))

/-- So it is for the links. -/
def LinksFit (V : Volume) (d : Members) : Prop :=
  ∀ i < V.conf.htableNbEntries, hashIsZero (V.diskEntry d i) V.hlen = false →
    (V.diskEntry d i).isLink = true → RangeFits V d i

instance (a b : Aentry) : Decidable (Apart a b) :=
  inferInstanceAs (Decidable (a.stop ≤ b.start ∨ b.stop ≤ a.start))

instance (V : Volume) (d : Members) (i : Nat) : Decidable (RangeFits V d i) :=
  inferInstanceAs (Decidable (V.tablesEnd ≤ (V.diskEntry d i).chunk ∧
    (V.diskEntry d i).chunk + containerLen V (V.diskEntry d i) ≤ V.volsize ∧
    ∀ j < V.conf.htableNbEntries, j ≠ i → hashIsZero (V.diskEntry d j) V.hlen = false →
      Apart (container V (V.diskEntry d i)) (container V (V.diskEntry d j))))

instance (V : Volume) (d : Members) : Decidable (LinksFit V d) :=
  inferInstanceAs (Decidable (∀ i < V.conf.htableNbEntries, hashIsZero (V.diskEntry d i) V.hlen = false →
    (V.diskEntry d i).isLink = true → RangeFits V d i))

/-- The ranges that a mount registers for the entries of a table. -/
def Volume.registered (V : Volume) (ent : Nat → Hentry) : List Aentry :=
  (List.range V.conf.htableNbEntries).filterMap fun i =>
    if hashIsZero (ent i) V.hlen then none else some (container V (ent i))

section Mount

variable {V : Volume} {v : VolInfo} {d : Members} {env : MountEnv}

theorem LinksFit.behind (h : LinksFit V d) : LinksBehind V d := by
  intro i hi hz hl
  obtain ⟨hb, hin, -⟩ := h i hi hz hl
  exact ⟨Nat.le_trans V.lastTable_le hb, Nat.lt_of_le_of_lt hin V.volsize_lt⟩

theorem tableAreas_packed (V : Volume) : Packed V.tableAreas := by
  unfold Volume.tableAreas
  refine List.pairwise_cons.2 ⟨?_, List.pairwise_cons.2 ⟨?_, ?_⟩⟩
  · intro a ha
    rcases List.mem_cons.1 ha with rfl | ha
    · exact .inl (Nat.le_refl 2)
    · split at ha
      · rw [List.mem_singleton.1 ha]
        exact .inl (Nat.le_add_right 2 _)
      · cases ha
  · intro a ha
    split at ha
    · rw [List.mem_singleton.1 ha]
      exact .inl (Nat.le_refl _)
    · cases ha
  · split
    · exact List.pairwise_singleton _ _
    · exact .nil

/-- What is registered, if all registrations succeed. -/
theorem registerContainers_perm {mem : Nat → Bool} {els : List HtableEl} {al : Alist}
    (hmem : ∀ i < els.length, mem i = true) : (registerContainers V v mem els al).entries.Perm
      (els.map (fun el => container V (v.hentry el)) ++ al.entries) := by
  have hfrom : ∀ (els : List HtableEl) (al : Alist) (n : Nat),
      (∀ i, n ≤ i → i < n + els.length → mem i = true) →
      (els.foldl (fun (s : Alist × Nat) el => ((shfsAlistRegister s.1 (mem s.2) (v.hentry el).chunk
        (containerLen V (v.hentry el))).2, s.2 + 1)) (al, n)).1.entries.Perm
        (els.map (fun el => container V (v.hentry el)) ++ al.entries) := by
    intro els
    induction els with
    | nil => exact fun al n _ => List.Perm.refl _
    | cons el els ih =>
        intro al n hmem
        rw [List.length_cons] at hmem
        rw [List.foldl_cons]
        refine (ih _ (n + 1) fun i hi hlt => hmem i (by omega) (by omega)).trans ?_
        rw [hmem n (Nat.le_refl n) (by omega), register_entries]
        exact ((insertByStart_perm _ _).append_left _).trans List.perm_middle
  exact hfrom els al 0 fun i _ hi => hmem i (by omega)

/-- The elements in use are the slots of the entries in use. -/
theorem listed_perm (ht : Table V v) {l : List HtableEl} (hl : v.bt.Listed l) :
    l.Perm ((List.range V.conf.htableNbEntries).filterMap fun i =>
      if hashIsZero (V.memEntry v i) V.hlen then none else some (v.slot i)) := by
  have hnd : ((List.range V.conf.htableNbEntries).filterMap fun i =>
      if hashIsZero (V.memEntry v i) V.hlen then none else some (v.slot i)).Nodup := by
    refine List.Nodup.filterMap ?_ List.nodup_range
    intro i j el hi hj
    split at hi
    · cases hi
    · split at hj
      · cases hj
      · obtain rfl := Option.some.inj hi
        exact (Table.slot_injective (Option.some.inj hj)).symm
  refine (List.perm_ext_iff_of_nodup hl.rep.nodup hnd).2 fun el => ?_
  rw [hl.mem, List.mem_filterMap]
  constructor
  · rintro ⟨hin, hused⟩
    obtain ⟨i, hi, rfl⟩ := ht.exists_slot hin
    rw [ht.isFree_slot hi, ht.hentry_eq hi] at hused
    refine ⟨i, List.mem_range.2 hi, if_neg ?_⟩
    exact fun hz => by
      have hz' : hashIsZero (tableEntry V.conf v.htableChunkCache i) V.hlen = true := hz
      rw [hused] at hz'
      cases hz'
  · rintro ⟨i, hi, hel⟩
    have hi := List.mem_range.1 hi
    split at hel
    · cases hel
    · rename_i hz
      obtain rfl := Option.some.inj hel
      refine ⟨ht.inRange_slot hi, ?_⟩
      rw [ht.isFree_slot hi, ht.hentry_eq hi]
      exact Bool.eq_false_iff.2 hz

/-- The ranges that a mount registers are apart and lie behind the tables. -/
theorem registered_packed (hok : DiskOk V d) (hsep : Separate V (V.diskEntry d)) (hfit : LinksFit V d) :
    Packed (V.tableAreas ++ V.registered (V.diskEntry d)) ∧
      ∀ a ∈ V.registered (V.diskEntry d), V.tablesEnd ≤ a.start ∧ a.start ≤ a.stop ∧ a.stop ≤ V.volsize := by
  have hplace : ∀ a ∈ V.registered (V.diskEntry d),
      V.tablesEnd ≤ a.start ∧ a.start ≤ a.stop ∧ a.stop ≤ V.volsize := by
    intro a ha
    obtain ⟨i, hi, ha⟩ := List.mem_filterMap.1 ha
    have hi := List.mem_range.1 hi
    split at ha
    · cases ha
    · rename_i hz
      have hz : hashIsZero (V.diskEntry d i) V.hlen = false := Bool.eq_false_iff.2 hz
      obtain rfl := Option.some.inj ha
      cases hl : (V.diskEntry d i).isLink with
      | true =>
          obtain ⟨hb, hin, -⟩ := hfit i hi hz hl
          have hstop : (container V (V.diskEntry d i)).stop =
              (V.diskEntry d i).chunk + containerLen V (V.diskEntry d i) :=
            wrap64_of_lt (Nat.lt_of_le_of_lt hin V.volsize_lt)
          rw [hstop]
          exact ⟨hb, Nat.le_add_right _ _, hin⟩
      | false =>
          have hf := hok i hi hz hl
          rw [← extent_eq hf]
          refine ⟨hf.behind, Nat.le_add_right _ _, hsep.inside _ ?_⟩
          exact mem_containers.2 ⟨i, hi, isFile_iff.2 ⟨hz, hl⟩, rfl⟩
  refine ⟨List.pairwise_append.2 ⟨tableAreas_packed V, ?_, ?_⟩, hplace⟩
  · have hfiles := (List.pairwise_append.1 hsep.packed).2.1
    have hpair := (List.pairwise_filterMap.1 hfiles).and List.nodup_range
    refine List.pairwise_filterMap.2 (hpair.imp_of_mem fun {i j} hi hj hij a ha b hb => ?_)
    have hi := List.mem_range.1 hi
    have hj := List.mem_range.1 hj
    obtain ⟨hboth, hne⟩ := hij
    split at ha
    · cases ha
    · rename_i hzi
      split at hb
      · cases hb
      · rename_i hzj
        have hzi : hashIsZero (V.diskEntry d i) V.hlen = false := Bool.eq_false_iff.2 hzi
        have hzj : hashIsZero (V.diskEntry d j) V.hlen = false := Bool.eq_false_iff.2 hzj
        obtain rfl := Option.some.inj ha
        obtain rfl := Option.some.inj hb
        -- one of the two is a link, or both are files
        cases hli : (V.diskEntry d i).isLink with
        | true => exact (hfit i hi hzi hli).2.2 j hj (Ne.symm hne) hzj
        | false =>
            cases hlj : (V.diskEntry d j).isLink with
            | true => exact ((hfit j hj hzj hlj).2.2 i hi hne hzi).symm
            | false =>
                rw [← extent_eq (hok i hi hzi hli), ← extent_eq (hok j hj hzj hlj)]
                exact hboth _ (if_pos (isFile_iff.2 ⟨hzi, hli⟩)) _ (if_pos (isFile_iff.2 ⟨hzj, hlj⟩))
  · intro a ha b hb
    exact .inl (Nat.le_trans (tableAreas_stop ha).2 (hplace b hb).1)

/-- A mount puts the containers on the list, if all registrations succeed and the links do no harm. -/
theorem mountShfs_stored (hio : env.Complete) (hm : mountShfs V env d = .ok v) (hok : DiskOk V d)
    (hsep : Separate V (V.diskEntry d)) (hfit : LinksFit V d)
    (hmem : ∀ i < V.conf.htableNbEntries, env.regMem (3 + i) = true) : Stored V v := by
  obtain ⟨hm, al, -, -, hent, hal⟩ := mountShfs_spec hio hm
  obtain ⟨hpacked, hplace⟩ := registered_packed hok hsep hfit
  obtain ⟨l, hl⟩ := hm.table.listed
  have hsame : ∀ i < V.conf.htableNbEntries, SameHentry (V.memEntry v i) (V.diskEntry d i) :=
    fun i hi => (hm.cached _ (V.chunkNo_lt hi)).entry
  have hregs : (l.map fun el => container V (v.hentry el)).Perm (V.registered (V.diskEntry d)) := by
    refine ((listed_perm hm.table hl).map _).trans (List.Perm.of_eq ?_)
    rw [List.map_filterMap]
    apply List.filterMap_congr
    intro i hi
    have hi := List.mem_range.1 hi
    rw [hashIsZero_congr ((hsame i hi).sameHash V.hlen_le)]
    split
    · rfl
    · have hentry : v.hentry (v.slot i) = V.memEntry v i := hm.table.hentry_eq hi
      have hcont : container V (V.memEntry v i) = container V (V.diskEntry d i) := by
        unfold container
        rw [(hsame i hi).attrs.1, containerLen_congr (hsame i hi)]
      show some (container V (v.hentry (v.slot i))) = _
      rw [hentry, hcont]
  have hperm : v.al.entries.Perm (V.tableAreas ++ V.registered (V.diskEntry d)) := by
    rw [hal, foreachHtableEl_eq hl]
    have hlen : l.length ≤ V.conf.htableNbEntries := by
      rw [(listed_perm hm.table hl).length_eq]
      exact Nat.le_trans (List.length_filterMap_le _ _) (Nat.le_of_eq List.length_range)
    refine (registerContainers_perm fun i hi => hmem i (by omega)).trans ?_
    rw [hent]
    exact (hregs.append_right _).trans List.perm_append_comm
  constructor
  case packed => exact hpacked.perm hperm.symm
  case inside =>
      intro a ha
      rcases List.mem_append.1 (hperm.mem_iff.1 ha) with ha | ha
      · exact ⟨(mem_tableAreas V ha).2.2.1, Nat.le_trans (tableAreas_stop ha).2 V.tablesEnd_le⟩
      · exact (hplace a ha).2
  case listed =>
      apply hperm.symm.subperm_left.1
      rw [containers_congr hsame]
      refine (List.subperm_append_left _).2 (filterMap_sublist fun i hi a ha => ?_).subperm
      obtain ⟨hf, rfl⟩ := fileExtent_some ha
      obtain ⟨hz, hl⟩ := isFile_iff.1 hf
      rw [hz, extent_eq (hok i (List.mem_range.1 hi) hz hl)]
      rfl

end Mount

/-! ## Runs -/

/-- No registration fails, and what a mount registers for links does no harm. -/
def Fitting (V : Volume) (s : Sys) : Event → Prop
  | .mount env => (∀ i < V.conf.htableNbEntries, env.regMem (3 + i) = true) ∧ LinksFit V s.disk
  | .token (.addObj _ env) => env.regMem = true
  | _ => True

instance (V : Volume) (s : Sys) : (e : Event) → Decidable (Fitting V s e)
  | .mount env => inferInstanceAs (Decidable
      ((∀ i < V.conf.htableNbEntries, env.regMem (3 + i) = true) ∧ LinksFit V s.disk))
  | .token (.addObj _ env) => inferInstanceAs (Decidable (env.regMem = true))
  | .umount _ | .token (.addLnk _ _) | .token (.rmObj _) | .token (.setDefault _) | .token .clearDefault =>
      .isTrue trivial

/-- The tables on disk and in memory are in order. -/
structure Sys.Separate (V : Volume) (s : Sys) : Prop where
  disk : Admin.Separate V (V.diskEntry s.disk)
  session : s.Holds fun v _ => Admin.Separate V (V.memEntry v)

/-- What sessions keep; a session that was cancelled takes no further token. -/
structure Sys.Stored (V : Volume) (s : Sys) : Prop where
  ok : s.Ok V
  separate : s.Separate V
  stored : ∀ v, s.session = some (v, false) → Admin.Stored V v

section Run

variable {V : Volume} {lib : MhashLib} {s t : Sys} {e : Event}

theorem stored_step (hs : s.Stored V) (hio : NoIoError V s e) (hfit : Fitting V s e)
    (h : (sessions V lib).Step s e t) : t.Stored V := by
  have hmount : MountOk V s e := by
    cases e with
    | mount env => exact hfit.2.behind
    | token a => trivial
    | umount env => trivial
  have hok : t.Ok V := ok_step hs.ok hmount (sessions_step.1 h).2.table (sessions_step.1 h).1
  obtain ⟨⟨hen, hcomp⟩, hnext⟩ := h
  cases e with
  | mount env =>
      obtain rfl | ⟨v, hv, rfl⟩ := mount_cases hnext
      · exact ⟨hok, ⟨hs.separate.disk, Sys.holds_none _⟩, fun v hv => by cases hv⟩
      · have hstored := mountShfs_stored hcomp hv hs.ok.disk hs.separate.disk hfit.2 hfit.1
        refine ⟨hok, ⟨hs.separate.disk, Sys.holds_some hstored.separate⟩, fun w hw => ?_⟩
        obtain ⟨rfl, -⟩ := Prod.mk.inj (Option.some.inj hw)
        exact hstored
  | token a =>
      obtain ⟨v, hv⟩ := hen
      have hg := hs.ok.session v false hv
      obtain rfl | ⟨ret, s', hrun, rfl⟩ := token_cases hv hnext
      · exact ⟨hok, ⟨hs.separate.disk, Sys.holds_none _⟩, fun v hv => by cases hv⟩
      · have heff := effect_of_run hg.table hrun
        have hdisk : Admin.Separate V (V.diskEntry s'.disk) :=
          hs.separate.disk.congr fun i hi => (heff.sameTables hg).entry hi
        have hio' : NoIoError V ⟨s.disk, some (v, false)⟩ (.token a) := by rwa [← hv]
        have hmem : ∀ j env, a = .addObj j env → env.regMem = true := by
          rintro j env rfl
          exact hfit
        rcases heff.stored hg (hs.stored v hv) hmem hio' with hst | ⟨hret, ⟨j, env, rfl⟩, hsep⟩
        · refine ⟨hok, ⟨hdisk, Sys.holds_some hst.separate⟩, fun w hw => ?_⟩
          obtain ⟨rfl, -⟩ := Prod.mk.inj (Option.some.inj hw)
          exact hst
        · -- the session is over
          refine ⟨hok, ⟨hdisk, Sys.holds_some hsep⟩, fun w hw => ?_⟩
          have hcancel := addfile_cancelled hrun hret
          rw [(Prod.mk.inj (Option.some.inj hw)).2] at hcancel
          cases hcancel
  | umount env =>
      obtain ⟨v, c, hv, rfl⟩ := umount_cases hen hnext
      have hu : umountShfs V env v s.disk = (true, (umountShfs V env v s.disk).2) :=
        Prod.ext (hio _ hv) rfl
      refine ⟨hok, ⟨?_, Sys.holds_none _⟩, fun w hw => by cases hw⟩
      exact (hs.separate.session v c hv).congr fun i hi => (hs.ok.session v c hv).umounted hcomp hu hi

theorem Formatted.stored {d : Members} (h : Formatted V d) : (⟨d, none⟩ : Sys).Stored V where
  ok := h.ok
  separate := by
    have hnil : V.containers (V.diskEntry d) = [] := by
      apply List.filterMap_eq_nil_iff.2
      exact fun i hi => fileExtent_none (.inl (h.unused (List.mem_range.1 hi)))
    refine ⟨⟨?_, ?_⟩, Sys.holds_none d⟩
    · rw [hnil, List.append_nil]
      exact tableAreas_packed V
    · rw [hnil]
      exact fun a ha => by cases ha
  stored := fun v hv => by cases hv

/-- In every state that sessions without an I/O error reach, the containers of the files are apart from each
other, from the label and from the table regions, and lie in the volume, on disk and in memory, if no
registration failed and no mount found a link whose bytes read as a range that does not fit. The run begins
on a formatted volume. A transfer is complete or fails, and the copy of a file may be cut short by a signal.
-/
theorem containers_separate {d₀ : Members} {es : List Event} (hd₀ : Formatted V d₀)
    (hrun : ((sessions V lib).restrict fun s e => NoIoError V s e ∧ Fitting V s e).Run ⟨d₀, none⟩ es s) :
    s.Separate V := by
  have hinv : s.Stored V := by
    refine hrun.invariant (I := Sys.Stored V) (fun u e w hu hs => ?_) hd₀.stored
    obtain ⟨hstep, hio, hfit⟩ := Machine.restrict_step.1 hs
    exact stored_step hu hio hfit hstep
  exact hinv.separate

end Run

/-- Two entries and digests of one byte that are given by hand, on four chunks. -/
def manualVolume : Volume where
  args := { tinyArgs.byHand with
    entriesPerBucket := 2
    entriesPerBucket_pos := Nat.two_pos
    entries_le := by decide }
  backup := false
  volsize := 4
  tables_le := by decide
  volsize_lt := tinyVolume.volsize_lt
  fits := by decide

/-- `add-obj` with the digest 2 of a file of `n` zeros. -/
def addManual (n : Nat) (h : n < 2 ^ 63) : Event :=
  .token (.addObj { plainToken [97] with optstr2 := some [48, 50] } (plainFile n h))

/-- `add-lnk http://h` with the digest 1. -/
def linkManual : Event :=
  .token (.addLnk { plainToken [104, 116, 116, 112, 58, 47, 47, 104] with optstr2 := some [48, 49] }
    ⟨some ⟨⟨true, 0, 4⟩, ⟨true, 7, 1⟩, none, ⟨false, 0, 0⟩, ⟨false, 0, 0⟩, ⟨false, 0, 0⟩, ⟨false, 0, 0⟩⟩,
      Bytes.zeros, true, 0⟩)

/-- A file is added in one session, and the next one has its container on the list. -/
theorem containers_separate_two : ∃ s v, ((sessions manualVolume onesLib).restrict fun s e =>
      NoIoError manualVolume s e ∧ Fitting manualVolume s e).Run ⟨fun _ _ => 0, none⟩
      [.mount plainMount, addManual 1 (by decide), .umount plainUmount, .mount plainMount] s ∧
    s.session = some (v, false) ∧ (⟨3, 4⟩ : Aentry) ∈ v.al.entries ∧ s.Separate manualVolume := by
  have hexec := @sessions_exec manualVolume onesLib (fun s e => NoIoError manualVolume s e ∧
      Fitting manualVolume s e) _ ⟨fun _ _ => 0, none⟩
    [.mount plainMount, addManual 1 (by decide), .umount plainUmount, .mount plainMount]
    (fun s => s.inSession fun v => decide ((⟨3, 4⟩ : Aentry) ∈ v.al.entries)) (by decide +kernel)
    (by simp [Event.Complete, Event.TableComplete, addManual])
  rcases hexec with ⟨s, hrun, hp⟩
  rcases Sys.inSession_spec hp with ⟨v, hs, hp⟩
  exact ⟨s, v, hrun, hs, of_decide_eq_true hp, containers_separate (fun _ _ _ _ => rfl) hrun⟩

/-- The host name of a link reads as chunk 26624. A mount takes the chunks in front of it as free, so a file
of two chunks is put at chunk 3, the last of the volume. -/
theorem link_breaks_containers : ∃ s, ((sessions manualVolume onesLib).restrict (NoIoError manualVolume)).Run
      ⟨fun _ _ => 0, none⟩ [.mount plainMount, linkManual, .umount plainUmount, .mount plainMount,
        addManual 8192 (by omega)] s ∧ ¬ s.Separate manualVolume := by
  have hexec := @sessions_exec manualVolume onesLib (NoIoError manualVolume) _ ⟨fun _ _ => 0, none⟩
    [.mount plainMount, linkManual, .umount plainUmount, .mount plainMount, addManual 8192 (by omega)]
    (fun s => s.inSession fun v => manualVolume.containers (manualVolume.memEntry v) == [⟨3, 5⟩])
    (by decide +kernel) (by simp [Event.Complete, Event.TableComplete, addManual, linkManual])
  rcases hexec with ⟨s, hrun, hp⟩
  rcases Sys.inSession_spec hp with ⟨v, hs, hp⟩
  refine ⟨s, hrun, fun hsep => ?_⟩
  have hmem : (⟨3, 5⟩ : Aentry) ∈ manualVolume.containers (manualVolume.memEntry v) := by
    rw [beq_iff_eq.1 hp]
    exact List.mem_singleton_self _
  exact absurd ((hsep.session v false hs).inside ⟨3, 5⟩ hmem) (by decide)

end Minipython.Tools.Admin
