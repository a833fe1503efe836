/-
# Minipython.Tools.Effect — what an action can do to a session (shfs_admin.c)

`Effect V lib s a r` lists the ways in which the action `a` can leave the session `s`, one constructor
for each, with the guards that led there. `effect_of_run` is the inversion of `Action.run`; everything
that sessions keep is proved by cases on an `Effect`.

The three ways of `actn_addfile` are told apart by `Reserves` and `Inserts`: nothing was reserved, the
container was reserved and given back, or the entry was inserted. A copy that fails comes behind the
insertion, so it gives the container back and leaves the entry.

The effect has the numbers and bytes of the source in it (the chunk that was found, the slot, the new
entry), so that a proof need not look at an action again. The inversion is for a table that is in order
(`Table`), which every effect keeps; what it does to files, marks and the allocator list depends on its
case.
-/
import Minipython.Tools.Table

namespace Minipython.Tools.Admin

open Minipython.Lib
open Minipython.Shfs
open Htable

/-- `actn_addfile` gets as far as reserving the container at `cchk`. -/
structure Reserves (V : Volume) (env : AddEnv) (s : Session) (cchk : Nat) : Prop where
  opened : env.opened = true
  stat : env.stat = true
  isReg : env.isReg = true
  found : findContainer V s.vol.al (env.csize V) = some cchk

/-- The digest of the file is `fhash`, no entry has it, and its bucket has a free slot; `buf` is what
the I/O buffer holds then. -/
structure Inserts (V : Volume) (lib : MhashLib) (j : Token) (env : AddEnv) (s : Session)
    (fhash : Hash512) (buf : Bytes) : Prop where
  digest : ∃ tmpChk, env.tmpChk = some tmpChk ∧
    fileDigest V lib j env (env.csize V) tmpChk = .ok (.ok (fhash, buf))
  fresh : shfsBtableLookup s.vol.bt fhash = none
  room : HasRoom s.vol.bt fhash

/-- The session once the entry of a file is inserted. -/
def inserted (V : Volume) (j : Token) (env : AddEnv) (cchk : Nat) (fhash : Hash512) (el : HtableEl)
    (bt : Htable) (s : Session) : VolInfo :=
  addHentry { (reserve V env cchk s).vol with bt := bt } el fun e =>
    fileHentry e V.hlen fhash cchk env.stSize env.timestamp j

/-- The contents are copied with the result `ret`, which leaves the members as `d`. -/
def Copied (V : Volume) (env : AddEnv) (cchk : Nat) (buf : Bytes) (s : Session) (ret : Int)
    (d : Members) : Prop :=
  if env.copySeek then copyFile V env cchk (env.csize V) 0 env.stSize 0 buf s.disk = (ret, d)
  else ret = -1 ∧ d = s.disk

/-- What an action can do. -/
inductive Effect (V : Volume) (lib : MhashLib) (s : Session) : Action → Int × Session → Prop where
  | same {a : Action} {ret : Int}
      (hno : ∀ j env cchk, a = .addObj j env → ¬ Reserves V env s cchk) : Effect V lib s a (ret, s)
  | undone {j : Token} {env : AddEnv} {cchk : Nat} {ret : Int} {cancel : Bool}
      (hres : Reserves V env s cchk) (hret : ret < 0) (hno : ∀ h buf, ¬ Inserts V lib j env s h buf) :
      Effect V lib s (.addObj j env)
        (ret, releaseContainer { reserve V env cchk s with cancel := cancel } cchk (env.csize V))
  | copyFailed {j : Token} {env : AddEnv} {cchk : Nat} {fhash : Hash512} {buf : Bytes} {l : List HtableEl}
      {el : HtableEl} {bt : Htable} {ret : Int} {d : Members} {cancel : Bool}
      (hres : Reserves V env s cchk) (hins : Inserts V lib j env s fhash buf)
      (hadd : Added s.vol.bt l fhash el bt) (hcopy : Copied V env cchk buf s ret d) (hret : ret < 0) :
      Effect V lib s (.addObj j env)
        (ret, releaseContainer ⟨inserted V j env cchk fhash el bt s, d, cancel⟩ cchk (env.csize V))
  | added {j : Token} {env : AddEnv} {cchk : Nat} {fhash : Hash512} {buf : Bytes} {l : List HtableEl}
      {el : HtableEl} {bt : Htable} {ret : Int} {d : Members} {cancel : Bool}
      (hres : Reserves V env s cchk) (hins : Inserts V lib j env s fhash buf)
      (hadd : Added s.vol.bt l fhash el bt) (hcopy : Copied V env cchk buf s ret d) (hret : 0 ≤ ret) :
      Effect V lib s (.addObj j env) (ret, ⟨inserted V j env cchk fhash el bt s, d, cancel⟩)
  | linked {j : Token} {env : LinkEnv} {u : HttpParserUrl} {rhost : Bytes} {fhash : Hash512}
      {l : List HtableEl} {el : HtableEl} {bt : Htable} (hurl : env.url = some u)
      (hhost : hntoshfshost (j.path.drop u.host.off) u.host.len env.stack = some rhost)
      (hnew : shfsBtableLookup s.vol.bt fhash = none) (hadd : Added s.vol.bt l fhash el bt) :
      Effect V lib s (.addLnk j env) (0, { s with
        vol := addHentry { s.vol with bt := bt } el fun e =>
          linkHentry e V.hlen fhash rhost u env.timestamp j })
  | removedLink {j : Token} {h : Hash512} {el : HtableEl}
      (hparse : hashParse j.path Bytes.zeros V.hlen = some h)
      (hfound : shfsBtableLookup s.vol.bt h = some el) (hlink : (s.vol.hentry el).isLink = true) :
      Effect V lib s (.rmObj j) (0, { s with vol := rmEntry V h el s.vol })
  | removed {j : Token} {h : Hash512} {el : HtableEl} {al : Alist}
      (hparse : hashParse j.path Bytes.zeros V.hlen = some h)
      (hfound : shfsBtableLookup s.vol.bt h = some el) (hfile : (s.vol.hentry el).isLink = false)
      (hal : shfsAlistUnregister s.vol.al (s.vol.hentry el).chunk
        (containerLen V (s.vol.hentry el)) = some al) :
      Effect V lib s (.rmObj j) (0, { s with vol := rmEntry V h el { s.vol with al := al } })
  | defaultCleared {el : HtableEl} (hdef : s.vol.defBentry = some el) :
      Effect V lib s .clearDefault (0, { s with vol := clearDefault s.vol })
  | defaultSet {j : Token} {h : Hash512} {el : HtableEl}
      (hparse : hashParse j.path Bytes.zeros V.hlen = some h)
      (hfound : shfsBtableLookup s.vol.bt h = some el) :
      Effect V lib s (.setDefault j) (0, { s with
        vol := { bentrySetflags (clearDefault s.vol) el shfsEflagDefault with defBentry := some el } })

/-! ## The inversion -/

theorem lift_ok {α : Type} {x : Except Fault α} {a : α} (h : lift x = .ok a) : x = .ok a := by
  cases x with
  | ok b =>
      have hb : (Except.ok b : Except Stop α) = .ok a := h
      rw [Except.ok.inj hb]
  | error f => cases h

theorem hashFile_error {chunksize csize : Nat} {env : AddEnv} {n c pos : Nat} {buf : Bytes}
    {acc : List UInt8} {ret : Int} (h : hashFile chunksize csize env n c pos buf acc = .error ret) :
    ret < 0 := by
  induction n generalizing c pos buf acc with
  | zero => cases h
  | succ n ih =>
      rw [hashFile] at h
      simp only at h
      split at h
      · obtain rfl := Except.error.inj h
        decide
      · split at h
        · obtain rfl := Except.error.inj h
          decide
        · exact ih h

/-- A digest that cannot be had is a negative result. -/
theorem fileDigest_error {V : Volume} {lib : MhashLib} {j : Token} {env : AddEnv} {csize : Nat}
    {tmpChk : Bytes} {ret : Int} (h : fileDigest V lib j env csize tmpChk = .ok (.error ret)) :
    ret < 0 := by
  unfold fileDigest at h
  split at h
  · split at h
    · cases h
    split at h
    · obtain rfl := Except.error.inj (Except.ok.inj h)
      decide
    split at h
    · obtain rfl := Except.error.inj (Except.ok.inj h)
      decide
    · have hmap := Except.ok.inj h
      cases hfile : hashFile V.chunksize csize env csize 0 0 tmpChk [] with
      | ok r =>
          rw [hfile] at hmap
          cases hmap
      | error e =>
          rw [hfile] at hmap
          obtain rfl := Except.error.inj hmap
          exact hashFile_error hfile
  · split at h
    · obtain rfl := Except.error.inj (Except.ok.inj h)
      decide
    · split at h
      · obtain rfl := Except.error.inj (Except.ok.inj h)
        decide
      · cases Except.ok.inj h

section Inversion

variable {V : Volume} {lib : MhashLib} {s : Session} {r : Int × Session}

theorem copied_insertFile {j : Token} {env : AddEnv} {cchk : Nat} {fhash : Hash512} {buf : Bytes}
    {el : HtableEl} {bt : Htable} : ∃ ret d cancel, Copied V env cchk buf s ret d ∧
      insertFile V j env cchk (env.csize V) fhash buf el bt (reserve V env cchk s) =
        (ret, ⟨inserted V j env cchk fhash el bt s, d, cancel⟩) := by
  unfold insertFile Copied
  split
  · exact ⟨_, _, _, rfl, rfl⟩
  · exact ⟨_, _, _, ⟨rfl, rfl⟩, rfl⟩

/-- `actn_addfile` behind the reservation: the entry is not inserted and nothing but the abort flag has
changed, or it is inserted. -/
theorem addReserved_cases (ht : Table V s.vol) {j : Token} {env : AddEnv} {cchk : Nat}
    (h : addReserved V lib j env cchk (env.csize V) (reserve V env cchk s) = .ok r) :
    ((∀ h buf, ¬ Inserts V lib j env s h buf) ∧ r.1 < 0 ∧
        ∃ cancel, r.2 = { reserve V env cchk s with cancel := cancel }) ∨
      ∃ fhash buf l el bt ret d cancel, Inserts V lib j env s fhash buf ∧
        Added s.vol.bt l fhash el bt ∧ Copied V env cchk buf s ret d ∧
        r = (ret, ⟨inserted V j env cchk fhash el bt s, d, cancel⟩) := by
  have hneg : (-1 : Int) < 0 := by decide
  unfold addReserved at h
  cases htmp : env.tmpChk with
  | none =>
      rw [htmp] at h
      obtain rfl := Except.ok.inj h
      refine .inl ⟨fun h buf hins => ?_, hneg, _, rfl⟩
      obtain ⟨b, hb, -⟩ := hins.digest
      rw [htmp] at hb
      cases hb
  | some tmpChk =>
      rw [htmp] at h
      obtain ⟨x, hx, h⟩ := ok_of_bind h
      -- what `Inserts` would need is decided by the digest that was computed
      have hdig : ∀ fhash buf, Inserts V lib j env s fhash buf → x = .ok (fhash, buf) := by
        intro fhash buf hins
        obtain ⟨b, hb, hd⟩ := hins.digest
        rw [htmp] at hb
        obtain rfl := Option.some.inj hb
        exact Except.ok.inj (hx.symm.trans hd)
      cases x with
      | error ret =>
          obtain rfl := Except.ok.inj h
          refine .inl ⟨fun fhash buf hins => ?_, fileDigest_error hx, _, rfl⟩
          cases hdig fhash buf hins
      | ok p =>
          obtain ⟨fhash, buf⟩ := p
          have hsame : ∀ fhash' buf', Inserts V lib j env s fhash' buf' →
              fhash' = fhash ∧ buf' = buf := fun fhash' buf' hins => by
            obtain ⟨h1, h2⟩ := Prod.mk.inj (Except.ok.inj (hdig fhash' buf' hins))
            exact ⟨h1.symm, h2.symm⟩
          simp only at h
          split at h
          · rename_i hfound
            obtain rfl := Except.ok.inj h
            refine .inl ⟨fun fhash' buf' hins => ?_, hneg, _, rfl⟩
            obtain ⟨rfl, rfl⟩ := hsame fhash' buf' hins
            have hnone : shfsBtableLookup (reserve V env cchk s).vol.bt fhash' = none := hins.fresh
            rw [hnone] at hfound
            cases hfound
          · rename_i hfresh
            change ¬ (shfsBtableLookup s.vol.bt fhash).isSome = true at hfresh
            have hfresh : shfsBtableLookup s.vol.bt fhash = none := by simpa using hfresh
            obtain ⟨⟨res, bt⟩, hadd, h⟩ := ok_of_bind h
            have hadd : htableAdd s.vol.bt fhash = .ok (res, bt) := lift_ok hadd
            obtain ⟨l, hl⟩ := ht.listed
            obtain ⟨hno, heq⟩ | ⟨hroom, el, bt', heq, hspec⟩ := htableAdd_spec hl ht.nbBkts_pos fhash
            · obtain ⟨rfl, rfl⟩ := Prod.mk.inj (Except.ok.inj (hadd.symm.trans heq))
              obtain rfl := Except.ok.inj h
              refine .inl ⟨fun fhash' buf' hins => ?_, hneg, _, rfl⟩
              obtain ⟨rfl, rfl⟩ := hsame fhash' buf' hins
              exact hno hins.room
            · obtain ⟨rfl, rfl⟩ := Prod.mk.inj (Except.ok.inj (hadd.symm.trans heq))
              obtain rfl := Except.ok.inj h
              have hins : Inserts V lib j env s fhash buf := ⟨⟨tmpChk, htmp, hx⟩, hfresh, hroom⟩
              obtain ⟨ret, d, cancel, hcopy, heq⟩ := copied_insertFile
              exact .inr ⟨fhash, buf, l, el, _, ret, d, cancel, hins, hspec, hcopy, heq⟩

theorem effect_addfile (ht : Table V s.vol) {j : Token} {env : AddEnv}
    (h : actnAddfile V lib j env s = .ok r) : Effect V lib s (.addObj j env) r := by
  have hsame : (∀ cchk, ¬ Reserves V env s cchk) → r = (-1, s) → Effect V lib s (.addObj j env) r := by
    rintro hno rfl
    apply Effect.same
    intro j' env' cchk heq
    obtain ⟨rfl, rfl⟩ := Action.addObj.inj heq
    exact hno cchk
  unfold actnAddfile at h
  split at h
  · rename_i hc
    apply hsame _ (Except.ok.inj h).symm
    intro cchk hres
    rw [hres.opened] at hc
    cases hc
  split at h
  · rename_i hc
    apply hsame _ (Except.ok.inj h).symm
    intro cchk hres
    rw [hres.stat] at hc
    cases hc
  split at h
  · rename_i hc
    apply hsame _ (Except.ok.inj h).symm
    intro cchk hres
    rw [hres.isReg] at hc
    cases hc
  rename_i ho hs hr
  simp only at h
  cases hfind : findContainer V s.vol.al (env.csize V) with
  | none =>
      rw [hfind] at h
      apply hsame _ (Except.ok.inj h).symm
      intro cchk hres
      rw [hres.found] at hfind
      cases hfind
  | some cchk =>
      rw [hfind] at h
      have hres : Reserves V env s cchk := ⟨by simpa using ho, by simpa using hs, by simpa using hr, hfind⟩
      obtain ⟨q, hq, h⟩ := ok_of_bind h
      obtain rfl := Except.ok.inj h
      obtain ⟨hno, hret, cancel, hq2⟩ | ⟨fhash, buf, l, el, bt, ret, d, cancel, hins, hadd, hcopy, rfl⟩ :=
        addReserved_cases ht hq
      · rw [if_pos hret, hq2]
        exact .undone hres hret hno
      · by_cases hret : ret < 0
        · rw [if_pos hret]
          exact .copyFailed hres hins hadd hcopy hret
        · rw [if_neg hret]
          exact .added hres hins hadd hcopy (by omega)

/-- An action that adds no object reserves nothing. -/
theorem Effect.keep {a : Action} {ret : Int} (h : ∀ j env, a ≠ .addObj j env) :
    Effect V lib s a (ret, s) := .same fun j env _ heq => absurd heq (h j env)

theorem effect_addlink (ht : Table V s.vol) {j : Token} {env : LinkEnv}
    (h : actnAddlink V lib j env s = .ok r) : Effect V lib s (.addLnk j env) r := by
  have hkeep : ∀ {ret : Int}, r = (ret, s) → Effect V lib s (.addLnk j env) r := by
    rintro ret rfl
    apply Effect.keep
    intro _ _ heq
    cases heq
  unfold actnAddlink at h
  cases hurl : env.url with
  | none =>
      rw [hurl] at h
      exact hkeep (Except.ok.inj h).symm
  | some u =>
      rw [hurl] at h
      simp only at h
      split at h
      · exact hkeep (Except.ok.inj h).symm
      cases hhost : hntoshfshost (j.path.drop u.host.off) u.host.len env.stack with
      | none =>
          rw [hhost] at h
          exact hkeep (Except.ok.inj h).symm
      | some rhost =>
          rw [hhost] at h
          obtain ⟨x, hx, h⟩ := ok_of_bind h
          cases x with
          | error ret => exact hkeep (Except.ok.inj h).symm
          | ok fhash =>
              change insertLink V j env u rhost fhash s = .ok r at h
              unfold insertLink at h
              split at h
              · exact hkeep (Except.ok.inj h).symm
              · rename_i hfresh
                have hfresh : shfsBtableLookup s.vol.bt fhash = none := by simpa using hfresh
                obtain ⟨⟨res, bt⟩, hadd, h⟩ := ok_of_bind h
                have hadd : htableAdd s.vol.bt fhash = .ok (res, bt) := lift_ok hadd
                obtain ⟨l, hl⟩ := ht.listed
                obtain ⟨-, heq⟩ | ⟨-, el, bt', heq, hspec⟩ := htableAdd_spec hl ht.nbBkts_pos fhash
                · obtain ⟨rfl, rfl⟩ := Prod.mk.inj (Except.ok.inj (hadd.symm.trans heq))
                  exact hkeep (Except.ok.inj h).symm
                · obtain ⟨rfl, rfl⟩ := Prod.mk.inj (Except.ok.inj (hadd.symm.trans heq))
                  obtain rfl := Except.ok.inj h
                  exact .linked hurl hhost hfresh hspec

theorem effect_rmfile {j : Token} : Effect V lib s (.rmObj j) (actnRmfile V j s) := by
  have hkeep : Effect V lib s (.rmObj j) (-1, s) := by
    apply Effect.keep
    intro _ _ heq
    cases heq
  unfold actnRmfile
  cases hparse : hashParse j.path Bytes.zeros V.hlen with
  | none => exact hkeep
  | some h =>
      cases hfound : shfsBtableLookup s.vol.bt h with
      | none =>
          simp only [hfound]
          exact hkeep
      | some el =>
          simp only [hfound]
          cases hlink : (s.vol.hentry el).isLink with
          | true =>
              rw [if_pos rfl]
              exact .removedLink hparse hfound hlink
          | false =>
              rw [if_neg Bool.false_ne_true, Nat.add_comm]
              cases hal : shfsAlistUnregister s.vol.al (s.vol.hentry el).chunk
                  (containerLen V (s.vol.hentry el)) with
              | none =>
                  unfold containerLen at hal
                  rw [hal]
                  exact hkeep
              | some al =>
                  have heff : Effect V lib s (.rmObj j) (0, { s with
                    vol := rmEntry V h el { s.vol with al := al } }) := .removed hparse hfound hlink hal
                  unfold containerLen at hal
                  rw [hal]
                  exact heff

theorem effect_setdefault {j : Token} : Effect V lib s (.setDefault j) (actnSetdefault V j s) := by
  have hkeep : Effect V lib s (.setDefault j) (-1, s) := by
    apply Effect.keep
    intro _ _ heq
    cases heq
  unfold actnSetdefault
  cases hparse : hashParse j.path Bytes.zeros V.hlen with
  | none => exact hkeep
  | some h =>
      cases hfound : shfsBtableLookup s.vol.bt h with
      | none =>
          simp only [hfound]
          exact hkeep
      | some el =>
          simp only [hfound]
          exact .defaultSet hparse hfound

theorem effect_cleardefault : Effect V lib s .clearDefault (actnCleardefault s) := by
  unfold actnCleardefault
  cases hdef : s.vol.defBentry with
  | none =>
      have hsame : clearDefault s.vol = s.vol := by
        unfold clearDefault
        rw [hdef]
      rw [hsame]
      apply Effect.keep
      intro _ _ heq
      cases heq
  | some el => exact .defaultCleared hdef

/-- What an action that returns has done. -/
theorem effect_of_run (ht : Table V s.vol) {a : Action} (h : a.run V lib s = .ok r) :
    Effect V lib s a r := by
  cases a with
  | addObj j env => exact effect_addfile ht h
  | addLnk j env => exact effect_addlink ht h
  | rmObj j =>
      obtain rfl := Except.ok.inj h
      exact effect_rmfile
  | setDefault j =>
      obtain rfl := Except.ok.inj h
      exact effect_setdefault
  | clearDefault =>
      obtain rfl := Except.ok.inj h
      exact effect_cleardefault

end Inversion

/-! ## The table behind an action -/

section Keep

variable {V : Volume} {lib : MhashLib} {v : VolInfo} {el : HtableEl}

/-- A new entry with the digest that was added. -/
theorem Table.added (ht : Table V v) {l : List HtableEl} {fhash : Hash512} {bt : Htable}
    {f : Hentry → Hentry} (ha : Added v.bt l fhash el bt) (hf : ∀ e, SameHash V.hlen (f e) fhash) :
    Table V (addHentry { v with bt := bt } el f) := by
  obtain ⟨i, hi, rfl⟩ := ht.exists_slot ha.inRange
  apply ht.edit hi ha.geom ha.digests ha.listed
  rw [ht.hlen]
  exact (hashCopy_same _ _ _).trans (hf _).symm

/-- An entry is removed. -/
theorem Table.removed (ht : Table V v) {h : Hash512} (hfound : shfsBtableLookup v.bt h = some el) :
    Table V (rmEntry V h el v) := by
  obtain ⟨l, hl⟩ := ht.listed
  obtain ⟨i, hi, rfl, -, -⟩ := ht.lookup_some hfound
  obtain ⟨hg, hh, hl'⟩ := htableRm_spec hl (htableLookup_used hl ht.nbBkts_pos hfound)
  have hrm : shfsBtableRmentry v.bt h = htableRm v.bt (v.slot i) := by
    change htableLookup v.bt h = _ at hfound
    unfold shfsBtableRmentry
    rw [hfound]
  unfold rmEntry
  rw [hrm]
  apply ht.edit hi hg hh hl'
  rw [ht.hlen]
  intro k hk
  have hword : k < hashWordEnd V.hlen := by
    unfold hashWordEnd
    omega
  unfold hashClear
  rw [if_pos hword, if_pos hword]

/-- The flags of an entry are not part of its digest. -/
theorem mapFlags_hash {V : Volume} (f : UInt8 → UInt8) (e : Hentry) :
    SameHash V.hlen (mapFlags f e) e := by
  intro k hk
  have := V.hlen_le
  exact Bytes.putLe_outside (by omega)

/-- The flags of an entry are changed. -/
theorem Table.mapped (ht : Table V v) (hel : v.bt.InRange el) (f : UInt8 → UInt8) :
    Table V (addHentry v el (mapFlags f)) := by
  obtain ⟨l, hl⟩ := ht.listed
  obtain ⟨i, hi, rfl⟩ := ht.exists_slot hel
  have hsame : v.bt.h = Function.update v.bt.h (v.slot i) (v.bt.h (v.slot i)) :=
    (Function.update_eq_self _ _).symm
  exact ht.edit hi (SameGeom.refl v.bt) hsame hl ((ht.digest i hi).trans (mapFlags_hash f _).symm)

theorem Table.cleared (ht : Table V v) : Table V (clearDefault v) := by
  unfold clearDefault
  cases hdef : v.defBentry with
  | none => exact ht
  | some el =>
      have hm : Table V (bentryClearflags v el shfsEflagDefault) := ht.mapped (ht.dflt el hdef) _
      exact hm.congr rfl rfl rfl fun x hx => by cases hx

theorem clearDefault_bt (v : VolInfo) : (clearDefault v).bt = v.bt := by
  unfold clearDefault
  split
  · rfl
  · rfl

/-- The container is given back or not registered. -/
theorem releaseContainer_parts (s : Session) (cchk csize : Nat) :
    ∃ al, (releaseContainer s cchk csize) = { s with vol := { s.vol with al := al } } := by
  unfold releaseContainer
  split
  · exact ⟨_, rfl⟩
  · exact ⟨_, rfl⟩

theorem Table.inserted {s : Session} (ht : Table V s.vol) {j : Token} {env : AddEnv} {cchk : Nat}
    {fhash : Hash512} {l : List HtableEl} {bt : Htable} (hadd : Added s.vol.bt l fhash el bt) :
    Table V (inserted V j env cchk fhash el bt s) := by
  have hres : Table V (reserve V env cchk s).vol := ht.congr rfl rfl rfl ht.dflt
  exact hres.added hadd fun e => fileHentry_hash V.hlen_le

/-- Every action keeps the table. -/
theorem Effect.table {s : Session} {a : Action} {r : Int × Session} (he : Effect V lib s a r)
    (ht : Table V s.vol) : Table V r.2.vol := by
  cases he with
  | same _ => exact ht
  | @undone j env cchk ret cancel _ _ _ =>
      obtain ⟨al, hal⟩ := releaseContainer_parts { reserve V env cchk s with cancel := cancel } cchk
        (env.csize V)
      simp only [hal]
      exact ht.congr rfl rfl rfl ht.dflt
  | @copyFailed j env cchk fhash buf l el bt ret d cancel _ _ hadd _ _ =>
      obtain ⟨al, hal⟩ := releaseContainer_parts ⟨inserted V j env cchk fhash el bt s, d, cancel⟩ cchk
        (env.csize V)
      simp only [hal]
      have hv : Table V (Admin.inserted V j env cchk fhash el bt s) := ht.inserted hadd
      exact hv.congr rfl rfl rfl hv.dflt
  | added _ _ hadd _ _ => exact ht.inserted hadd
  | linked _ _ _ hadd => exact ht.added hadd fun e => linkHentry_hash V.hlen_le
  | removedLink _ hfound _ => exact ht.removed hfound
  | @removed j h el al _ hfound _ _ =>
      have hal : Table V { s.vol with al := al } := ht.congr rfl rfl rfl ht.dflt
      exact hal.removed hfound
  | defaultCleared _ => exact ht.cleared
  | @defaultSet j h el _ hfound =>
      obtain ⟨i, hi, rfl, -, -⟩ := ht.lookup_some hfound
      have hin : s.vol.bt.InRange (s.vol.slot i) := ht.inRange_slot hi
      rw [← clearDefault_bt s.vol] at hin
      have hm : Table V (bentrySetflags (clearDefault s.vol) (s.vol.slot i) shfsEflagDefault) :=
        ht.cleared.mapped hin _
      exact hm.congr rfl rfl rfl fun x hx => Option.some.inj hx ▸ hin

end Keep

end Minipython.Tools.Admin
