/-
# Minipython.Tools.Objects — the files behind the digests (shfs_admin.c)

For its users a volume is a map from digests to files: `add-obj` binds a digest to a file, `rm-obj` takes
it away. `Store` is that map and `storeOf` reads it off the events.

`Keeps V st ent d` says that a table and the members keep it: every entry in use stands in the bucket of
its digest and names a container that holds its file, and every digest that is bound has one entry. Tokens
that return 0 keep it (`keeps_token`), and so do mounts and unmounts (`keeps_step`), as long as every
container is on the allocator list.

The digest of a file is what `add-obj` computes or is given; two files with one digest cannot both be there,
as the second token fails. `Succeeds` says that a token returned 0, `Registers` that its container got its
place on the list. A file is its bytes, `FileAt` that a container holds them on the members, cut into chunks
and stripes.
-/
import Minipython.Tools.Cat
import Minipython.Tools.Containers
import Minipython.Tools.FileHash

namespace Minipython.Tools.Admin

open Minipython.Lib
open Minipython.Lib.Extent
open Minipython.Shfs
open Htable

/-! ## The files of a volume -/

/-- A file as it was when it was added. -/
structure StoredFile where
  size : Nat
  data : Bytes

/-- The file that each digest is bound to. -/
abbrev Store := Hash512 → Option StoredFile

/-- Bind a digest to a file, or to none. -/
def Store.put (V : Volume) (st : Store) (fhash : Hash512) (x : Option StoredFile) : Store := fun h =>
  if hashCompare fhash h V.hlen then st h else x

/-- The digest that `actn_addfile` computes or takes from its token, and the file. -/
def addedFile (V : Volume) (lib : MhashLib) (j : Token) (env : AddEnv) : Option (Hash512 × StoredFile) :=
  match env.tmpChk with
  | none => none
  | some tmpChk =>
      match fileDigest V lib j env (env.csize V) tmpChk with
      | .ok (.ok (fhash, _)) => some (fhash, ⟨env.stSize, env.data⟩)
      | _ => none

/-- What an event does to the files, if it succeeds. -/
def Store.after (V : Volume) (lib : MhashLib) (st : Store) : Event → Store
  | .token (.addObj j env) =>
      match addedFile V lib j env with
      | some (fhash, f) => st.put V fhash (some f)
      | none => st
  | .token (.rmObj j) =>
      match hashParse j.path Bytes.zeros V.hlen with
      | some h => st.put V h none
      | none => st
  | _ => st

/-- The files that were added and not removed since. -/
def storeOf (V : Volume) (lib : MhashLib) (es : List Event) : Store :=
  es.foldl (Store.after V lib) fun _ => none

section Put

variable {V : Volume} {st : Store} {fhash h : Hash512} {x : Option StoredFile}

theorem put_same (hs : SameHash V.hlen fhash h) : st.put V fhash x h = x := by
  unfold Store.put
  rw [hashCompare_eq_false.2 hs, if_neg Bool.false_ne_true]

theorem put_other (hs : ¬ SameHash V.hlen fhash h) : st.put V fhash x h = st h := by
  unfold Store.put
  rw [if_pos]
  rw [← Bool.not_eq_false, hashCompare_eq_false]
  exact hs

theorem put_congr (hst : ∀ a b, SameHash V.hlen a b → st a = st b) (a b : Hash512)
    (hab : SameHash V.hlen a b) : st.put V fhash x a = st.put V fhash x b := by
  by_cases hs : SameHash V.hlen fhash a
  · rw [put_same hs, put_same (hs.trans hab)]
  · rw [put_other hs, put_other fun hb => hs (hb.trans hab.symm)]
    exact hst a b hab

end Put

/-! ## A file in a container -/

/-- The entry names a container that holds the file. -/
structure FileAt (V : Volume) (d : Members) (e : Hentry) (f : StoredFile) : Prop where
  file : e.isLink = false
  offset : e.offset = 0
  len : e.len = f.size
  inside : ContainerIn V e
  bytes : ∀ k < f.size, fileByte V d e k = f.data k

/-- The entries of a table keep the files of a store. -/
structure Keeps (V : Volume) (st : Store) (ent : Nat → Hentry) (d : Members) : Prop where
  congr : ∀ h h', SameHash V.hlen h h' → st h = st h'
  listed : ∀ i < V.conf.htableNbEntries, hashIsZero (ent i) V.hlen = false →
    i / V.conf.htableNbEntriesPerBucket = htableBktNo (ent i) V.hlen V.conf.htableNbBuckets ∧
      ∃ f, st (ent i) = some f ∧ FileAt V d (ent i) f
  found : ∀ h f, st h = some f → hashIsZero h V.hlen = false ∧
    ∃ i < V.conf.htableNbEntries, SameHash V.hlen (ent i) h
  unique : ∀ i < V.conf.htableNbEntries, ∀ j < V.conf.htableNbEntries,
    hashIsZero (ent i) V.hlen = false → SameHash V.hlen (ent i) (ent j) → i = j

section Files

variable {V : Volume} {st : Store} {ent ent' : Nat → Hentry} {d d' : Members} {e e' : Hentry}
  {f : StoredFile} {i : Nat} {h : Hash512}

theorem FileAt.congr (hf : FileAt V d e f) (hs : SameHentry e' e) : FileAt V d e' f := by
  obtain ⟨hc, ho, hn⟩ := hs.attrs
  refine ⟨hs.isLink.trans hf.file, ho.trans hf.offset, hn.trans hf.len, fun i hi => ?_, fun k hk => ?_⟩
  · rw [ho, hn] at hi
    rw [hc]
    exact hf.inside i hi
  · have hsame : fileByte V d e' k = fileByte V d e k := by
      unfold fileByte
      rw [hc, ho]
    exact hsame.trans (hf.bytes k hk)

/-- The chunk that holds a byte of the file. -/
theorem FileAt.chunk (hf : FileAt V d e f) {k : Nat} (hk : k < f.size) :
    k / V.chunksize * V.chunksize < e.offset + e.len := by
  have hle := Nat.div_mul_le_self k V.chunksize
  rw [hf.offset, hf.len]
  omega

/-- A file whose chunks are as before is still there. -/
theorem FileAt.moved (hf : FileAt V d e f)
    (hsame : ∀ c, e.chunk ≤ c → (c - e.chunk) * V.chunksize < e.offset + e.len → SameAt V.g d' d c) :
    FileAt V d' e f := by
  refine ⟨hf.file, hf.offset, hf.len, hf.inside, fun k hk => ?_⟩
  have hin := hf.chunk hk
  have hmod : k % V.chunksize < V.g.chunkLen := by
    rw [V.chunkLen_eq]
    exact Nat.mod_lt k V.chunksize_pos
  have hkeep := hsame (e.chunk + k / V.chunksize) (Nat.le_add_right _ _)
    (by rw [Nat.add_sub_cancel_left]; exact hin) _ hmod
  have hbyte := hf.bytes k hk
  unfold fileByte at hbyte ⊢
  rw [hf.offset, Nat.zero_add] at hbyte ⊢
  exact hkeep.trans hbyte

/-- The table and the members may change where no file is. -/
theorem Keeps.moved (hk : Keeps V st ent d)
    (hent : ∀ i < V.conf.htableNbEntries, SameHentry (ent' i) (ent i))
    (hd : ∀ i < V.conf.htableNbEntries, hashIsZero (ent i) V.hlen = false → ∀ f, FileAt V d (ent i) f →
      FileAt V d' (ent i) f) : Keeps V st ent' d' := by
  have hash : ∀ i < V.conf.htableNbEntries, SameHash V.hlen (ent' i) (ent i) := fun i hi =>
    (hent i hi).sameHash V.hlen_le
  constructor
  case congr => exact hk.congr
  case listed =>
      intro i hi hz
      rw [hashIsZero_congr (hash i hi)] at hz
      obtain ⟨hb, f, hst, hf⟩ := hk.listed i hi hz
      rw [htableBktNo_congr _ (hash i hi), hk.congr _ _ (hash i hi)]
      exact ⟨hb, f, hst, (hd i hi hz f hf).congr (hent i hi)⟩
  case found =>
      intro h f hst
      obtain ⟨hz, i, hi, hs⟩ := hk.found h f hst
      exact ⟨hz, i, hi, (hash i hi).trans hs⟩
  case unique =>
      intro i hi j hj hz hs
      rw [hashIsZero_congr (hash i hi)] at hz
      exact hk.unique i hi j hj hz ((hash i hi).symm.trans (hs.trans (hash j hj)))

/-- A new table keeps no file. -/
theorem keeps_unused (hz : ∀ i < V.conf.htableNbEntries, hashIsZero (ent i) V.hlen = true) :
    Keeps V (fun _ => none) ent d where
  congr := fun _ _ _ => rfl
  listed := fun i hi hused => by
    rw [hz i hi] at hused
    cases hused
  found := fun h f hst => by cases hst
  unique := fun i hi j hj hused => by
    rw [hz i hi] at hused
    cases hused

/-- A digest that is not bound gets an entry. -/
theorem Keeps.insert (hk : Keeps V st ent d) (hi : i < V.conf.htableNbEntries)
    (hfree : hashIsZero (ent i) V.hlen = true) (hnew : st h = none) (hz : hashIsZero h V.hlen = false)
    (hb : i / V.conf.htableNbEntriesPerBucket = htableBktNo h V.hlen V.conf.htableNbBuckets)
    (he : SameHash V.hlen e h) (hf : FileAt V d' e f)
    (hent : ∀ j < V.conf.htableNbEntries, SameHentry (ent' j) (if j = i then e else ent j))
    (hd : ∀ j < V.conf.htableNbEntries, hashIsZero (ent j) V.hlen = false → ∀ g, FileAt V d (ent j) g →
      FileAt V d' (ent j) g) : Keeps V (st.put V h (some f)) ent' d' := by
  have hself : SameHentry (ent' i) e := by
    have hi' := hent i hi
    rwa [if_pos rfl] at hi'
  have hother : ∀ j < V.conf.htableNbEntries, j ≠ i → SameHentry (ent' j) (ent j) := fun j hj hji => by
    have hj' := hent j hj
    rwa [if_neg hji] at hj'
  have hdig : SameHash V.hlen (ent' i) h := (hself.sameHash V.hlen_le).trans he
  -- no other entry in use has the digest
  have hmiss : ∀ j < V.conf.htableNbEntries, hashIsZero (ent j) V.hlen = false →
      ¬ SameHash V.hlen h (ent j) := fun j hj hused hs => by
    obtain ⟨-, g, hst, -⟩ := hk.listed j hj hused
    rw [← hk.congr _ _ hs, hnew] at hst
    cases hst
  have hused : ∀ j < V.conf.htableNbEntries, j ≠ i → hashIsZero (ent' j) V.hlen = false →
      hashIsZero (ent j) V.hlen = false := fun j hj hji hu => by
    rwa [hashIsZero_congr ((hother j hj hji).sameHash V.hlen_le)] at hu
  constructor
  case congr => exact put_congr hk.congr
  case listed =>
      intro j hj hu
      by_cases hji : j = i
      · subst hji
        rw [put_same hdig.symm, htableBktNo_congr _ hdig]
        exact ⟨hb, f, rfl, hf.congr hself⟩
      · have hsame := (hother j hj hji).sameHash V.hlen_le
        have hu := hused j hj hji hu
        obtain ⟨hbj, g, hst, hg⟩ := hk.listed j hj hu
        rw [put_other fun hs => hmiss j hj hu (hs.trans hsame), htableBktNo_congr _ hsame,
          hk.congr _ _ hsame]
        exact ⟨hbj, g, hst, (hd j hj hu g hg).congr (hother j hj hji)⟩
  case found =>
      intro a g hst
      by_cases hs : SameHash V.hlen h a
      · rw [← hashIsZero_congr hs]
        exact ⟨hz, i, hi, hdig.trans hs⟩
      · rw [put_other hs] at hst
        obtain ⟨hza, j, hj, hja⟩ := hk.found a g hst
        have hji : j ≠ i := by
          rintro rfl
          rw [hashIsZero_congr hja, hza] at hfree
          cases hfree
        exact ⟨hza, j, hj, ((hother j hj hji).sameHash V.hlen_le).trans hja⟩
  case unique =>
      intro j hj k hk' hu hs
      by_cases hji : j = i
      · by_cases hki : k = i
        · rw [hji, hki]
        · subst hji
          have hsk := (hother k hk' hki).sameHash V.hlen_le
          have huk : hashIsZero (ent k) V.hlen = false := by
            rw [← hashIsZero_congr hsk, ← hashIsZero_congr hs]
            exact hu
          exact absurd (hdig.symm.trans (hs.trans hsk)) (hmiss k hk' huk)
      · have hsj := (hother j hj hji).sameHash V.hlen_le
        have huj := hused j hj hji hu
        by_cases hki : k = i
        · subst hki
          exact absurd (hdig.symm.trans (hs.symm.trans hsj)) (hmiss j hj huj)
        · have hsk := (hother k hk' hki).sameHash V.hlen_le
          exact hk.unique j hj k hk' huj (hsj.symm.trans (hs.trans hsk))

/-- The entry of a digest is cleared. -/
theorem Keeps.remove (hk : Keeps V st ent d) (hi : i < V.conf.htableNbEntries)
    (hz : hashIsZero h V.hlen = false) (hs : SameHash V.hlen (ent i) h)
    (he : hashIsZero e V.hlen = true)
    (hent : ∀ j < V.conf.htableNbEntries, SameHentry (ent' j) (if j = i then e else ent j)) :
    Keeps V (st.put V h none) ent' d := by
  have hclear : hashIsZero (ent' i) V.hlen = true := by
    have hi' := hent i hi
    rw [if_pos rfl] at hi'
    rw [hashIsZero_congr (hi'.sameHash V.hlen_le)]
    exact he
  have hother : ∀ j < V.conf.htableNbEntries, j ≠ i → SameHentry (ent' j) (ent j) := fun j hj hji => by
    have hj' := hent j hj
    rwa [if_neg hji] at hj'
  have hne : ∀ j, hashIsZero (ent' j) V.hlen = false → j ≠ i := by
    rintro j hu rfl
    rw [hclear] at hu
    cases hu
  have hused : ∀ j < V.conf.htableNbEntries, hashIsZero (ent' j) V.hlen = false →
      hashIsZero (ent j) V.hlen = false := fun j hj hu => by
    rwa [hashIsZero_congr ((hother j hj (hne j hu)).sameHash V.hlen_le)] at hu
  have hzi : hashIsZero (ent i) V.hlen = false := by
    rw [hashIsZero_congr hs]
    exact hz
  constructor
  case congr => exact put_congr hk.congr
  case listed =>
      intro j hj hu
      have hji := hne j hu
      have hsame := (hother j hj hji).sameHash V.hlen_le
      have hu := hused j hj hu
      obtain ⟨hbj, g, hst, hg⟩ := hk.listed j hj hu
      have hmiss : ¬ SameHash V.hlen h (ent' j) := fun hh =>
        hji (hk.unique i hi j hj hzi (hs.trans (hh.trans hsame))).symm
      rw [put_other hmiss, htableBktNo_congr _ hsame, hk.congr _ _ hsame]
      exact ⟨hbj, g, hst, hg.congr (hother j hj hji)⟩
  case found =>
      intro a g hst
      by_cases hsa : SameHash V.hlen h a
      · rw [put_same hsa] at hst
        cases hst
      · rw [put_other hsa] at hst
        obtain ⟨hza, j, hj, hja⟩ := hk.found a g hst
        have hji : j ≠ i := by
          rintro rfl
          exact hsa (hs.symm.trans hja)
        exact ⟨hza, j, hj, ((hother j hj hji).sameHash V.hlen_le).trans hja⟩
  case unique =>
      intro j hj k hk' hu hjk
      have huk : hashIsZero (ent' k) V.hlen = false := by
        rw [← hashIsZero_congr hjk]
        exact hu
      have hsj := (hother j hj (hne j hu)).sameHash V.hlen_le
      have hsk := (hother k hk' (hne k huk)).sameHash V.hlen_le
      exact hk.unique j hj k hk' (hused j hj hu) (hsj.symm.trans (hjk.trans hsk))

end Files

/-! ## Looking up -/

/-- The slots of a bucket table hold the digests of the entries. -/
structure Digests (V : Volume) (bt : Htable) (ent : Nat → Hentry) : Prop where
  nbBkts : bt.nbBkts = V.conf.htableNbBuckets
  elPerBkt : bt.elPerBkt = V.conf.htableNbEntriesPerBucket
  hlen : bt.hlen = V.hlen
  same : ∀ i < V.conf.htableNbEntries, SameHash V.hlen (bt.h (bt.slot i)) (ent i)

section Lookup

variable {V : Volume} {bt : Htable} {st : Store} {ent : Nat → Hentry} {d : Members} {h : Hash512}

theorem Table.digests {v : VolInfo} (ht : Table V v) : Digests V v.bt (V.memEntry v) where
  nbBkts := ht.nbBkts
  elPerBkt := ht.elPerBkt
  hlen := ht.hlen
  same := fun i hi => by
    have hd := ht.digest i hi
    rwa [ht.hentry_eq hi] at hd

/-- What a lookup finds is the entry of the file. -/
theorem Keeps.lookup_some (hk : Keeps V st ent d) (hd : Digests V bt ent) {el : HtableEl}
    (hf : shfsBtableLookup bt h = some el) : ∃ i < V.conf.htableNbEntries, bt.slot i = el ∧
      SameHash V.hlen (ent i) h ∧ hashIsZero h V.hlen = false ∧
        ∃ f, st h = some f ∧ FileAt V d (ent i) f := by
  have hpos : 0 < bt.nbBkts := by
    rw [hd.nbBkts]
    exact V.nbBuckets_pos
  obtain ⟨hin, hsame, hz, -⟩ := htableLookup_some hpos hf
  obtain ⟨i, hi, rfl⟩ := slot_surjective hin
  rw [hd.nbBkts, hd.elPerBkt, ← V.nbEntries_eq] at hi
  rw [hd.hlen] at hsame hz
  have hent : SameHash V.hlen (ent i) h := (hd.same i hi).symm.trans hsame
  have hused : hashIsZero (ent i) V.hlen = false := by
    rw [hashIsZero_congr hent]
    exact hz
  obtain ⟨-, f, hst, hfile⟩ := hk.listed i hi hused
  rw [hk.congr _ _ hent] at hst
  exact ⟨i, hi, rfl, hent, hz, f, hst, hfile⟩

/-- A digest that is not found is not bound. -/
theorem Keeps.lookup_none (hk : Keeps V st ent d) (hd : Digests V bt ent)
    (hf : shfsBtableLookup bt h = none) : st h = none := by
  cases hst : st h with
  | none => rfl
  | some f =>
      exfalso
      obtain ⟨hz, i, hi, hs⟩ := hk.found h f hst
      have hused : hashIsZero (ent i) V.hlen = false := by
        rw [hashIsZero_congr hs]
        exact hz
      obtain ⟨hb, -⟩ := hk.listed i hi hused
      rw [htableBktNo_congr _ hs] at hb
      have hzb : hashIsZero h bt.hlen = false := by
        rw [hd.hlen]
        exact hz
      -- the slot of the entry is one of those that the lookup went through
      have hin : i < bt.nbBkts * bt.elPerBkt := by
        rw [hd.nbBkts, hd.elPerBkt, ← V.nbEntries_eq]
        exact hi
      refine (htableLookup_none hzb).1 hf (i % bt.elPerBkt) (slot_inRange hin).2 ?_
      rw [hd.hlen, hd.nbBkts, ← hb, ← hd.elPerBkt]
      exact (hd.same i hi).trans hs

theorem Keeps.lookup_isSome (hk : Keeps V st ent d) (hd : Digests V bt ent) :
    (shfsBtableLookup bt h).isSome = (st h).isSome := by
  cases hf : shfsBtableLookup bt h with
  | none =>
      rw [hk.lookup_none hd hf]
      rfl
  | some el =>
      obtain ⟨i, -, -, -, -, f, hst, -⟩ := hk.lookup_some hd hf
      rw [hst]
      rfl

end Lookup

/-! ## Copying -/

/-- Every read of the copy returns all the bytes it was asked for. -/
def FullReads (V : Volume) (env : AddEnv) : Prop := ∀ c < env.csize V, ∀ k ∈ env.copyRead c,
  min V.chunksize (env.stSize - c * V.chunksize) ≤ k

instance (V : Volume) (env : AddEnv) : Decidable (FullReads V env) :=
  inferInstanceAs (Decidable (∀ c < env.csize V, ∀ k ∈ env.copyRead c,
    min V.chunksize (env.stSize - c * V.chunksize) ≤ k))

section Copy

variable {V : Volume} {env : AddEnv} {cchk : Nat} {d d' : Members}

/-- The chunks of a file are those that hold a byte of it. -/
theorem lt_csize (V : Volume) (env : AddEnv) (c : Nat) :
    c < env.csize V ↔ c * V.chunksize < env.stSize := by
  have hpos := V.chunksize_pos
  rw [csize_eq, Nat.lt_div_iff_mul_lt hpos]
  omega

/-- A copy that is complete has written the file to its chunks, and nothing else. The induction is on the
chunks left. -/
theorem copyFile_written (hfull : FullReads V env) (hio : env.Complete)
    (hin : cchk + env.csize V ≤ V.volsize) {n c : Nat} (hn : c + n = env.csize V) {buf : Bytes}
    (h : copyFile V env cchk n c (env.stSize - c * V.chunksize) (min (c * V.chunksize) env.stSize) buf d =
      (0, d')) :
    (∀ i, c ≤ i → i < env.csize V → Addressed V.g (cchk + i) ∧ ∀ k < V.chunksize,
      i * V.chunksize + k < env.stSize → chunkAt V.g d' (cchk + i) k = env.data (i * V.chunksize + k)) ∧
    ∀ c' < V.volsize, (c' < cchk + c ∨ cchk + env.csize V ≤ c') → SameAt V.g d' d c' := by
  induction n generalizing c buf d with
  | zero =>
      obtain ⟨-, rfl⟩ := Prod.mk.inj h
      exact ⟨fun i hi hlt => by omega, fun _ _ _ _ _ => rfl⟩
  | succ n ih =>
      have hc : c < env.csize V := by omega
      have hleft := (lt_csize V env c).1 hc
      have hvol := V.volsize_lt
      have hwrap : wrap64 (cchk + c) = cchk + c := wrap64_of_lt (by omega)
      have hfit : V.g.Fits (cchk + c) 1 := V.fits _ (by omega)
      have hpos : min (c * V.chunksize) env.stSize = c * V.chunksize := by omega
      have hmul : (c + 1) * V.chunksize = c * V.chunksize + V.chunksize := Nat.succ_mul _ _
      have hrlen : (if V.chunksize < env.stSize - c * V.chunksize then V.chunksize
          else env.stSize - c * V.chunksize) = min V.chunksize (env.stSize - c * V.chunksize) := by
        split <;> omega
      rw [copyFile, if_neg (by omega)] at h
      simp only [hrlen, hwrap, hpos] at h
      generalize (if V.chunksize < env.stSize - c * V.chunksize then buf
        else Bytes.blit buf 0 Bytes.zeros V.chunksize) = b at h
      split at h
      · cases (Prod.mk.inj h).1
      · rename_i k hk
        obtain ⟨hnext, hread⟩ := @AddEnv.read_full env (c * V.chunksize) _ k b (hfull c hc k hk) (by omega)
        have hbuf := fun x hx => List.map_inj_left.1 hread x (List.mem_range.2 hx)
        split at h
        · cases (Prod.mk.inj h).1
        · rename_i d₁ hwrite
          split at h
          · cases (Prod.mk.inj h).1
          · have hrest : env.stSize - c * V.chunksize - min V.chunksize (env.stSize - c * V.chunksize) =
                env.stSize - (c + 1) * V.chunksize := by omega
            have hend : c * V.chunksize + min V.chunksize (env.stSize - c * V.chunksize) =
                min ((c + 1) * V.chunksize) env.stSize := by omega
            rw [hrest, hnext, hend] at h
            obtain ⟨hwritten, hother⟩ := ih (by omega) h
            have haddr := writeChunk_addressed d (congrArg Prod.fst hwrite)
            refine ⟨fun i hi hlt => ?_, fun c' hc' hout => ?_⟩
            · by_cases hic : i = c
              · subst hic
                refine ⟨haddr, fun x hx hfile => ?_⟩
                have hlen : x < V.g.chunkLen := by
                  rw [V.chunkLen_eq]
                  exact hx
                -- the chunks that follow leave this one alone
                have hsame := writeChunk_same hfit (hio i) (congrArg Prod.fst hwrite) hlen
                rw [hwrite] at hsame
                rw [hother (cchk + i) (by omega) (.inl (by omega)) x hlen, hsame, hbuf x (by omega)]
                rfl
              · exact hwritten i (by omega) hlt
            · have hd₁ : SameAt V.g d₁ d c' := write_other hfit (V.fits c' hc') (by omega) hwrite
              exact fun x hx => (hother c' hc' (by omega) x hx).trans (hd₁ x hx)

end Copy

/-! ## A token -/

section Token

variable {V : Volume} {lib : MhashLib} {st : Store} {s : Session} {j : Token} {env : AddEnv} {cchk : Nat}
  {d : Members}

/-- `actn_addfile` returns 0 only if it reserves a container. -/
theorem addfile_zero {r : Int × Session} (h : actnAddfile V lib j env s = .ok r) (hret : r.1 = 0) :
    ∃ cchk, Reserves V env s cchk := by
  have hne : (-1 : Int) ≠ 0 := by decide
  have hfail : ∀ {t : Session}, r ≠ (-1, t) := by
    rintro t rfl
    exact hne hret
  unfold actnAddfile at h
  split at h
  · exact absurd (Except.ok.inj h).symm hfail
  split at h
  · exact absurd (Except.ok.inj h).symm hfail
  split at h
  · exact absurd (Except.ok.inj h).symm hfail
  rename_i ho hs hr
  simp only at h
  cases hfind : findContainer V s.vol.al (env.csize V) with
  | none =>
      rw [hfind] at h
      exact absurd (Except.ok.inj h).symm hfail
  | some cchk => exact ⟨cchk, by simpa using ho, by simpa using hs, by simpa using hr, hfind⟩

/-- What `actn_rmfile` does when it returns 0. -/
theorem rmfile_zero (hret : (actnRmfile V j s).1 = 0) : ∃ h el al,
    hashParse j.path Bytes.zeros V.hlen = some h ∧ shfsBtableLookup s.vol.bt h = some el ∧
      (actnRmfile V j s).2 = { s with vol := rmEntry V h el { s.vol with al := al } } := by
  have hne : (-1 : Int) ≠ 0 := by decide
  unfold actnRmfile at hret ⊢
  cases hparse : hashParse j.path Bytes.zeros V.hlen with
  | none =>
      rw [hparse] at hret
      exact absurd hret hne
  | some h =>
      cases hfound : shfsBtableLookup s.vol.bt h with
      | none =>
          simp only [hparse, hfound] at hret
          exact absurd hret hne
      | some el =>
          simp only [hparse, hfound] at hret ⊢
          split
          · exact ⟨h, el, s.vol.al, rfl, hfound, rfl⟩
          · rename_i hlink
            rw [if_neg hlink] at hret
            split
            · rename_i hal
              rw [hal] at hret
              exact absurd hret hne
            · rename_i al hal
              exact ⟨h, el, al, rfl, hfound, rfl⟩

/-- The chunks of a file lie in its container. -/
theorem lt_extent {e : Hentry} {c : Nat} (hc : e.chunk ≤ c)
    (hin : (c - e.chunk) * V.chunksize < e.offset + e.len) : c < (extent V e).stop := by
  have hpos := V.chunksize_pos
  have hlt : c - e.chunk < (e.offset + e.len + V.chunksize - 1) / V.chunksize := by
    rw [Nat.lt_div_iff_mul_lt hpos]
    omega
  show c < e.chunk + _
  omega

/-- A copy to a free container leaves every file of the table where it is. -/
theorem FileAt.copied {e : Hentry} {f : StoredFile} {i : Nat} (hf : FileAt V s.disk e f)
    (hst : Stored V s.vol) (hi : i < V.conf.htableNbEntries) (he : e = V.memEntry s.vol i)
    (hz : hashIsZero e V.hlen = false) (hfree : FreeAt s.vol.al.entries cchk (env.csize V))
    (hother : ∀ c < V.volsize, (c < cchk ∨ cchk + env.csize V ≤ c) → SameAt V.g d s.disk c) :
    FileAt V d e f := by
  refine hf.moved fun c hc hin => ?_
  have hmem : extent V e ∈ s.vol.al.entries := by
    apply hst.listed.subset
    apply List.mem_append_right
    exact mem_containers.2 ⟨i, hi, isFile_iff.2 ⟨he ▸ hz, he ▸ hf.file⟩, by rw [he]⟩
  have hstop := lt_extent hc hin
  have hvol := (hf.inside (c - e.chunk) hin).1
  apply hother c (by omega)
  rcases hfree _ hmem with hle | hle
  · have hle : (extent V e).stop ≤ cchk := hle
    exact .inl (by omega)
  · have hle : cchk + env.csize V ≤ e.chunk := hle
    exact .inr (by omega)

/-- The file that was copied is in its container. -/
theorem fileAt_copied {e : Hentry} {fhash : Hash512} {now : Nat} (hin : cchk + env.csize V ≤ V.volsize)
    (hwritten : ∀ i < env.csize V, Addressed V.g (cchk + i) ∧ ∀ k < V.chunksize,
      i * V.chunksize + k < env.stSize → chunkAt V.g d (cchk + i) k = env.data (i * V.chunksize + k)) :
    FileAt V d (fileHentry e V.hlen fhash cchk env.stSize now j) ⟨env.stSize, env.data⟩ := by
  have hvol := V.volsize_lt
  have hsize := env.stSize_lt
  obtain ⟨hchunk, hoff, hlen⟩ := @fileHentry_container e V.hlen cchk env.stSize now fhash j (by omega)
    (Nat.lt_trans hsize (by decide))
  refine ⟨?_, hoff, hlen, fun i hi => ?_, fun k hk => ?_⟩
  · unfold Hentry.isLink
    rw [fileHentry_flags]
    rfl
  · rw [hoff, hlen, Nat.zero_add] at hi
    have hi := (lt_csize V env i).2 hi
    rw [hchunk]
    exact ⟨by omega, (hwritten i hi).1⟩
  · have hk : k < env.stSize := hk
    have hdiv := Nat.div_add_mod' k V.chunksize
    have hi := (lt_csize V env (k / V.chunksize)).2 (by omega)
    have hbyte := (hwritten _ hi).2 (k % V.chunksize) (Nat.mod_lt k V.chunksize_pos) (by omega)
    unfold fileByte
    rw [hchunk, hoff, Nat.zero_add, hbyte, hdiv]

/-- `actn_addfile` binds the digest to the file. -/
theorem Keeps.added (hk : Keeps V st (V.memEntry s.vol) s.disk) (hg : Good V s.vol s.disk)
    (hst : Stored V s.vol) (hfull : FullReads V env) (hio : env.Complete) (hres : Reserves V env s cchk)
    {fhash : Hash512} {buf : Bytes} (hins : Inserts V lib j env s fhash buf) {l : List HtableEl} {el : HtableEl} {bt : Htable}
    (hadd : Added s.vol.bt l fhash el bt) (hcopy : Copied V env cchk buf s 0 d) :
    Keeps V (st.after V lib (.token (.addObj j env)))
      (V.memEntry (inserted V j env cchk fhash el bt s)) d := by
  have ht := hg.table
  obtain ⟨hin, hfree⟩ := hst.found hg hres
  obtain ⟨i, hi, rfl⟩ := ht.exists_slot hadd.inRange
  have hbind : st.after V lib (.token (.addObj j env)) =
      st.put V fhash (some ⟨env.stSize, env.data⟩) := by
    obtain ⟨tmpChk, htmp, hdig⟩ := hins.digest
    show (match addedFile V lib j env with | some (fhash, f) => st.put V fhash (some f) | none => st) = _
    unfold addedFile
    simp only [htmp, hdig]
  -- the copy is complete
  unfold Copied at hcopy
  split at hcopy
  · have hstart : copyFile V env cchk (env.csize V) 0 (env.stSize - 0 * V.chunksize)
        (min (0 * V.chunksize) env.stSize) buf s.disk = (0, d) := by
      rw [Nat.zero_mul, Nat.sub_zero, Nat.zero_min]
      exact hcopy
    obtain ⟨hwritten, hother⟩ := copyFile_written hfull hio hin (Nat.zero_add _) hstart
    have hunused : hashIsZero (V.memEntry s.vol i) V.hlen = true := by
      have hslot := hadd.free
      rw [ht.isFree_slot hi, ht.hentry_eq hi] at hslot
      exact hslot
    have hbucket : i / V.conf.htableNbEntriesPerBucket = htableBktNo fhash V.hlen V.conf.htableNbBuckets := by
      have hb : i / s.vol.bt.elPerBkt = _ := hadd.bucket
      rwa [ht.elPerBkt, ht.hlen, ht.nbBkts] at hb
    have hnz : hashIsZero fhash V.hlen = false := by
      rw [← ht.hlen]
      exact hadd.nonzero
    rw [hbind]
    refine hk.insert hi hunused (hk.lookup_none ht.digests hins.fresh) hnz hbucket
      (fileHentry_hash V.hlen_le) (@fileAt_copied V j env cchk d (V.memEntry s.vol i) fhash env.timestamp
        hin fun k hk => hwritten k (Nat.zero_le k) hk)
      (fun k hk => memEntry_addHentry ht _ rfl rfl hi hk) fun k hk' hz f hf => ?_
    exact hf.copied hst hk' rfl hz hfree fun c hc hout => hother c hc (by omega)
  · exact absurd hcopy.1 (by decide)

/-- `actn_rmfile` takes the digest away. -/
theorem Keeps.removed (hk : Keeps V st (V.memEntry s.vol) s.disk) (ht : Table V s.vol) {h : Hash512}
    {el : HtableEl} {al : Alist} (hparse : hashParse j.path Bytes.zeros V.hlen = some h)
    (hfound : shfsBtableLookup s.vol.bt h = some el) :
    Keeps V (st.after V lib (.token (.rmObj j)))
      (V.memEntry (rmEntry V h el { s.vol with al := al })) s.disk := by
  have hbind : st.after V lib (.token (.rmObj j)) = st.put V h none := by
    show (match hashParse j.path Bytes.zeros V.hlen with | some h => st.put V h none | none => st) = _
    rw [hparse]
  obtain ⟨i, hi, rfl, hs, hz, -⟩ := hk.lookup_some ht.digests hfound
  rw [hbind]
  exact hk.remove hi hz hs (hashIsZero_hashClear _ _) fun k hk => memEntry_addHentry ht _ rfl rfl hi hk

end Token

/-! ## Runs -/

/-- The tokens that add and remove objects. -/
def Action.isObj : Action → Bool
  | .addObj _ _ | .rmObj _ => true
  | _ => false

/-- The action of a token returns 0. -/
def Action.returnsZero (V : Volume) (lib : MhashLib) (s : Session) (a : Action) : Bool :=
  match a.run V lib s with
  | .ok (ret, _) => ret == 0
  | .error _ => false

/-- What an action reads of a file it reads in full. -/
def Action.ReadsFull (V : Volume) : Action → Prop
  | .addObj _ env => FullReads V env
  | _ => True

/-- The tokens are `add-obj` and `rm-obj`, return 0, and read their files in full. -/
def Succeeds (V : Volume) (lib : MhashLib) (s : Sys) : Event → Prop
  | .token a => a.isObj = true ∧ a.ReadsFull V ∧
      ∀ p ∈ s.session, a.returnsZero V lib ⟨p.1, s.disk, p.2⟩ = true
  | _ => True

/-- Every container gets its place on the allocator list. -/
def Registers (V : Volume) : Event → Prop
  | .mount env => ∀ i < V.conf.htableNbEntries, env.regMem (3 + i) = true
  | .token (.addObj _ env) => env.regMem = true
  | _ => True

instance (V : Volume) : (a : Action) → Decidable (a.ReadsFull V)
  | .addObj _ env => inferInstanceAs (Decidable (FullReads V env))
  | .addLnk _ _ | .rmObj _ | .setDefault _ | .clearDefault => .isTrue trivial

instance (V : Volume) (lib : MhashLib) (s : Sys) : (e : Event) → Decidable (Succeeds V lib s e)
  | .token a => inferInstanceAs (Decidable (a.isObj = true ∧ a.ReadsFull V ∧
      ∀ p ∈ s.session, a.returnsZero V lib ⟨p.1, s.disk, p.2⟩ = true))
  | .mount _ | .umount _ => .isTrue trivial

instance (V : Volume) : (e : Event) → Decidable (Registers V e)
  | .mount env => inferInstanceAs (Decidable (∀ i < V.conf.htableNbEntries, env.regMem (3 + i) = true))
  | .token (.addObj _ env) => inferInstanceAs (Decidable (env.regMem = true))
  | .umount _ | .token (.addLnk _ _) | .token (.rmObj _) | .token (.setDefault _) | .token .clearDefault =>
      .isTrue trivial

/-- What sessions keep of the files: on disk between two sessions, and in memory within one. -/
structure Sys.Keeps (V : Volume) (st : Store) (s : Sys) : Prop where
  stored : s.Stored V
  disk : s.session = none → Admin.Keeps V st (V.diskEntry s.disk) s.disk
  session : s.Holds fun v d => Admin.Keeps V st (V.memEntry v) d

section Run

variable {V : Volume} {lib : MhashLib} {st : Store} {s t : Sys} {e : Event}

/-- A table of files has no links. -/
theorem Keeps.linksFit {d : Members} (hk : Keeps V st (V.diskEntry d) d) : LinksFit V d := by
  intro i hi hz hl
  obtain ⟨-, f, -, hf⟩ := hk.listed i hi hz
  rw [hf.file] at hl
  cases hl

/-- The condition on mounts and registrations that sessions with links need. -/
theorem Sys.Keeps.fitting (hs : s.Keeps V st) (hen : s.Enabled e) (hreg : Registers V e) :
    Fitting V s e := by
  cases e with
  | mount env => exact ⟨hreg, (hs.disk hen).linksFit⟩
  | token a =>
      cases a with
      | addObj j env => exact hreg
      | addLnk j env => trivial
      | rmObj j => trivial
      | setDefault j => trivial
      | clearDefault => trivial
  | umount env => trivial

/-- A token that returns 0 does to the files what it is for. -/
theorem keeps_token {v : VolInfo} {d : Members} {c : Bool} {a : Action} {r : Int × Session}
    (hk : Keeps V st (V.memEntry v) d) (hg : Good V v d) (hst : Stored V v) (hobj : a.isObj = true)
    (hfull : a.ReadsFull V) (hio : (Event.token a).Complete) (hrun : a.run V lib ⟨v, d, c⟩ = .ok r)
    (hret : r.1 = 0) :
    Keeps V (st.after V lib (.token a)) (V.memEntry r.2.vol) r.2.disk := by
  cases a with
  | addObj j env =>
      obtain ⟨cchk, hres⟩ := addfile_zero hrun hret
      cases effect_addfile hg.table hrun with
      | same hno => exact absurd hres (hno j env cchk rfl)
      | undone _ hneg _ => exact absurd hret (by simp only; omega)
      | copyFailed _ _ _ _ hneg => exact absurd hret (by simp only; omega)
      | added hres hins hadd hcopy _ =>
          obtain rfl := hret
          exact hk.added hg hst hfull hio hres hins hadd hcopy
  | rmObj j =>
      obtain rfl := Except.ok.inj hrun
      obtain ⟨h, el, al, hparse, hfound, heq⟩ := rmfile_zero hret
      rw [heq]
      exact hk.removed hg.table hparse hfound
  | addLnk j env => cases hobj
  | setDefault j => cases hobj
  | clearDefault => cases hobj

/-- A step of sessions. -/
theorem keeps_step (hs : s.Keeps V st) (hio : NoIoError V s e) (hzero : Succeeds V lib s e)
    (hreg : Registers V e) (h : (sessions V lib).Step s e t) : t.Keeps V (st.after V lib e) := by
  have hstored : t.Stored V := stored_step hs.stored hio (hs.fitting h.1.1 hreg) h
  obtain ⟨⟨hen, hcomp⟩, hnext⟩ := h
  cases e with
  | mount env =>
      obtain rfl | ⟨v, hv, rfl⟩ := mount_cases hnext
      · exact ⟨hstored, fun _ => hs.disk hen, Sys.holds_none _⟩
      · refine ⟨hstored, (fun hnone => by cases hnone), Sys.holds_some ?_⟩
        obtain ⟨hm, -⟩ := mountShfs_spec hcomp hv
        exact (hs.disk hen).moved (fun i hi => (hm.cached _ (V.chunkNo_lt hi)).entry) fun _ _ _ _ hf => hf
  | token a =>
      obtain ⟨v, hv⟩ := hen
      obtain ⟨hobj, hfull, hret⟩ := hzero
      have hret := hret _ hv
      simp only [sessions_next, Sys.next, hv] at hnext
      unfold Action.returnsZero at hret
      cases hrun : a.run V lib ⟨v, s.disk, false⟩ with
      | error stop =>
          rw [hrun] at hret
          cases hret
      | ok r =>
          rw [hrun] at hnext hret
          obtain rfl := Except.ok.inj hnext
          refine ⟨hstored, (fun hnone => by cases hnone), Sys.holds_some ?_⟩
          exact keeps_token (hs.session v false hv) (hs.stored.ok.session v false hv)
            (hs.stored.stored v hv) hobj hfull hcomp hrun (beq_iff_eq.1 hret)
  | umount env =>
      obtain ⟨v, c, hv, rfl⟩ := umount_cases hen hnext
      have hg := hs.stored.ok.session v c hv
      have hu : umountShfs V env v s.disk = (true, (umountShfs V env v s.disk).2) :=
        Prod.ext (hio _ hv) rfl
      refine ⟨hstored, fun _ => ?_, Sys.holds_none _⟩
      refine (hs.session v c hv).moved (fun i hi => hg.umounted hcomp hu hi) fun i hi hz f hf => ?_
      -- an unmount writes in front of all containers
      have hbehind := (hg.files i hi hz hf.file).behind
      refine hf.moved fun k hk hin => ?_
      have hvol := (hf.inside (k - (V.memEntry v i).chunk) hin).1
      exact umount_behind hu (V.fits k (by omega)) (by omega)

/-- A run does to the files what its events are for, by induction on its events. -/
theorem keeps_from {es : List Event} (hrun : ((sessions V lib).restrict fun s e =>
      NoIoError V s e ∧ Succeeds V lib s e ∧ Registers V e).Run s es t) (hs : s.Keeps V st) :
    t.Keeps V (es.foldl (Store.after V lib) st) := by
  induction hrun generalizing st with
  | nil _ => exact hs
  | cons h1 _ ih =>
      obtain ⟨h1, hio, hzero, hreg⟩ := Machine.restrict_step.1 h1
      exact ih (keeps_step hs hio hzero hreg h1)

/-- A new volume keeps no file. -/
theorem keeps_new {d₀ : Members} (hd₀ : Formatted V d₀) :
    (⟨d₀, none⟩ : Sys).Keeps V fun _ => none where
  stored := hd₀.stored
  disk := fun _ => keeps_unused fun _ hi => hd₀.unused hi
  session := Sys.holds_none d₀

end Run

end Minipython.Tools.Admin
