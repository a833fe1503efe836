/-
# Minipython.Tools.Names — files by their names (shfs_admin.c, shfs_fio.c)

`add-obj` stores a name beside the digest, cut at 64 characters, and `shfs_fio_open` of the unikernel goes
through the table for it when a path does not begin with a question mark. `namesOf` reads off the events
which name each digest is bound to. Sessions leave these names in the table (`named_step`), and a unikernel
finds by a name exactly the files that were given one which agrees with it as far as it was stored.

A name of 64 characters has no terminator on disk, and the comparison of the unikernel ends with the 64th as
well. So two names that agree in their first 64 characters are one, and the unikernel opens the first entry
with it in the order of its table. `OpensNames` says exactly that: what is opened by a name is a stored file
with this name, and where nothing is opened there is none.

The run is that of `EndToEnd`: tokens that return 0, every container on the allocator list, no I/O error,
and transfers that are complete. The names are strings of C, so they contain no zero; `basename` of the path
is taken where no name is given.
-/
import Minipython.Tools.EndToEnd

namespace Minipython.Tools.Admin

open Minipython.Lib
open Minipython.Shfs
open Htable

/-! ## Strings in an entry -/

/-- The field `name` holds the string as far as it goes. -/
def HasName (e : Hentry) (n : CString) : Prop :=
  ∀ k < Hentry.nameSize, e (Hentry.nameOff + k) = n.getD k 0

/-- `strncmp` with a string that was stored by `strncpy`: they agree if one is the other, cut. -/
theorem strncmpEq_stored {s t : CString} {mem : Bytes} {n : Nat} (hs : 0 ∉ s) (ht : 0 ∉ t)
    (hlen : s.length ≤ n) (hmem : ∀ k < n, mem k = t.getD k 0) :
    strncmpEq s mem n = true ↔ t.take n = s := by
  induction n generalizing s t mem with
  | zero =>
      obtain rfl := List.length_eq_zero_iff.1 (Nat.le_zero.1 hlen)
      simp [strncmpEq]
  | succ n ih =>
      have hhead := hmem 0 (Nat.succ_pos n)
      have htail : ∀ k < n, Bytes.window mem 1 k = t.tail.getD k 0 := fun k hk => by
        have hnext := hmem (1 + k) (by omega)
        rw [Nat.add_comm] at hnext
        unfold Bytes.window
        rw [Nat.add_comm, hnext]
        cases t <;> simp
      cases s with
      | nil =>
          cases t with
          | nil => simp [strncmpEq, hhead]
          | cons d ds =>
              have hd : d ≠ 0 := fun h => ht (by simp [h])
              simp [strncmpEq, hhead, hd]
      | cons c cs =>
          have hc : c ≠ 0 := fun h => hs (by simp [h])
          cases t with
          | nil => simp [strncmpEq, hhead, hc]
          | cons d ds =>
              have hrest := @ih cs ds (Bytes.window mem 1) (fun h => hs (List.mem_cons_of_mem c h))
                (fun h => ht (List.mem_cons_of_mem d h)) (Nat.le_of_succ_le_succ hlen) htail
              have hgo : (c == 0) = false := beq_eq_false_iff_ne.2 hc
              rw [strncmpEq, hhead, hgo, Bool.false_or, Bool.and_eq_true, List.take_succ_cons,
                List.cons.injEq, ← hrest]
              apply and_congr_left'
              exact beq_iff_eq.trans eq_comm

/-- The name of a new entry. -/
theorem fileHentry_name {e : Hentry} {hlen cchk fsize now : Nat} {fhash : Hash512} {j : Token} :
    HasName (fileHentry e hlen fhash cchk fsize now j) j.name := by
  intro k hk
  have hlt : 181 ≤ 181 + k ∧ 181 + k < 181 + 64 := ⟨Nat.le_add_right _ _, Nat.add_lt_add_left hk _⟩
  show strncpy _ 181 j.name 64 (181 + k) = _
  rw [strncpy, if_pos hlt, Nat.add_sub_cancel_left]

theorem HasName.congr {e e' : Hentry} {n : CString} (h : HasName e n) (hs : SameHentry e' e) :
    HasName e' n := by
  intro k hk
  rw [hs _ (by unfold sizeofHentry Hentry.nameOff; unfold Hentry.nameSize at hk; omega)]
  exact h k hk

/-! ## The names of a volume -/

/-- The name that each digest is bound to. -/
abbrev Names := Hash512 → Option CString

/-- Bind a digest to a name, or to none. -/
def Names.put (V : Volume) (nm : Names) (fhash : Hash512) (x : Option CString) : Names := fun h =>
  if hashCompare fhash h V.hlen then nm h else x

/-- What an event does to the names, if it succeeds. -/
def Names.after (V : Volume) (lib : MhashLib) (nm : Names) : Event → Names
  | .token (.addObj j env) =>
      match addedFile V lib j env with
      | some (fhash, _) => nm.put V fhash (some j.name)
      | none => nm
  | .token (.rmObj j) =>
      match hashParse j.path Bytes.zeros V.hlen with
      | some h => nm.put V h none
      | none => nm
  | _ => nm

/-- The names of the files that were added and not removed since. -/
def namesOf (V : Volume) (lib : MhashLib) (es : List Event) : Names :=
  es.foldl (Names.after V lib) fun _ => none

/-- The entries of a table hold the names. -/
structure Named (V : Volume) (st : Store) (nm : Names) (ent : Nat → Hentry) : Prop where
  congr : ∀ h h', SameHash V.hlen h h' → nm h = nm h'
  bound : ∀ h, (nm h).isSome = (st h).isSome
  named : ∀ i < V.conf.htableNbEntries, hashIsZero (ent i) V.hlen = false →
    ∃ n, nm (ent i) = some n ∧ HasName (ent i) n

section Put

variable {V : Volume} {st : Store} {nm : Names} {fhash h : Hash512} {x : Option CString}

theorem putName_same (hs : SameHash V.hlen fhash h) : nm.put V fhash x h = x := by
  unfold Names.put
  rw [hashCompare_eq_false.2 hs, if_neg Bool.false_ne_true]

theorem putName_other (hs : ¬ SameHash V.hlen fhash h) : nm.put V fhash x h = nm h := by
  unfold Names.put
  rw [if_pos]
  rw [← Bool.not_eq_false, hashCompare_eq_false]
  exact hs

theorem putName_congr (hnm : ∀ a b, SameHash V.hlen a b → nm a = nm b) (a b : Hash512)
    (hab : SameHash V.hlen a b) : nm.put V fhash x a = nm.put V fhash x b := by
  by_cases hs : SameHash V.hlen fhash a
  · rw [putName_same hs, putName_same (hs.trans hab)]
  · rw [putName_other hs, putName_other fun hb => hs (hb.trans hab.symm)]
    exact hnm a b hab

theorem putName_bound {f : Option StoredFile} (hnm : ∀ a, (nm a).isSome = (st a).isSome)
    (hx : x.isSome = f.isSome) (a : Hash512) :
    (nm.put V fhash x a).isSome = (st.put V fhash f a).isSome := by
  by_cases hs : SameHash V.hlen fhash a
  · rw [putName_same hs, put_same hs]
    exact hx
  · rw [putName_other hs, put_other hs]
    exact hnm a

end Put

section Entries

variable {V : Volume} {st : Store} {nm : Names} {ent ent' : Nat → Hentry} {d : Members} {e : Hentry}
  {f : StoredFile} {n : CString} {i : Nat} {h : Hash512}

/-- The same entries elsewhere. -/
theorem Named.moved (hn : Named V st nm ent)
    (hent : ∀ i < V.conf.htableNbEntries, SameHentry (ent' i) (ent i)) : Named V st nm ent' where
  congr := hn.congr
  bound := hn.bound
  named := by
    intro i hi hz
    have hsame := (hent i hi).sameHash V.hlen_le
    rw [hashIsZero_congr hsame] at hz
    obtain ⟨n, hnm, hname⟩ := hn.named i hi hz
    rw [hn.congr _ _ hsame]
    exact ⟨n, hnm, hname.congr (hent i hi)⟩

theorem named_unused (hz : ∀ i < V.conf.htableNbEntries, hashIsZero (ent i) V.hlen = true) :
    Named V (fun _ => none) (fun _ => none) ent where
  congr := fun _ _ _ => rfl
  bound := fun _ => rfl
  named := fun i hi hused => by
    rw [hz i hi] at hused
    cases hused

/-- One entry changes, and no other has its digest. -/
theorem Named.change {f : Option StoredFile} {x : Option CString} (hn : Named V st nm ent)
    (hx : x.isSome = f.isSome)
    (hself : hashIsZero (ent' i) V.hlen = false → ∃ n, nm.put V h x (ent' i) = some n ∧ HasName (ent' i) n)
    (hother : ∀ j < V.conf.htableNbEntries, j ≠ i → SameHentry (ent' j) (ent j))
    (hmiss : ∀ j < V.conf.htableNbEntries, j ≠ i → hashIsZero (ent j) V.hlen = false →
      ¬ SameHash V.hlen h (ent j)) :
    Named V (st.put V h f) (nm.put V h x) ent' where
  congr := putName_congr hn.congr
  bound := putName_bound hn.bound hx
  named := by
    intro j hj hz
    by_cases hji : j = i
    · rw [hji] at hz ⊢
      exact hself hz
    · have hsame := (hother j hj hji).sameHash V.hlen_le
      rw [hashIsZero_congr hsame] at hz
      obtain ⟨n, hnm, hname⟩ := hn.named j hj hz
      rw [putName_other fun hs => hmiss j hj hji hz (hs.trans hsame), hn.congr _ _ hsame]
      exact ⟨n, hnm, hname.congr (hother j hj hji)⟩

/-- A digest that is not bound gets an entry with a name. -/
theorem Named.insert (hn : Named V st nm ent) (hk : Keeps V st ent d) (hi : i < V.conf.htableNbEntries)
    (hnew : st h = none) (he : SameHash V.hlen e h) (hname : HasName e n)
    (hent : ∀ j < V.conf.htableNbEntries, SameHentry (ent' j) (if j = i then e else ent j)) :
    Named V (st.put V h (some f)) (nm.put V h (some n)) ent' := by
  have hself : SameHentry (ent' i) e := by
    have hi' := hent i hi
    rwa [if_pos rfl] at hi'
  apply hn.change (i := i) rfl
  · intro _
    refine ⟨n, ?_, hname.congr hself⟩
    exact putName_same ((hself.sameHash V.hlen_le).trans he).symm
  · intro j hj hji
    have hj' := hent j hj
    rwa [if_neg hji] at hj'
  · intro j hj _ hz hs
    obtain ⟨-, g, hst, -⟩ := hk.listed j hj hz
    rw [← hk.congr _ _ hs, hnew] at hst
    cases hst

/-- The entry of a digest is cleared. -/
theorem Named.remove (hn : Named V st nm ent) (hk : Keeps V st ent d) (hi : i < V.conf.htableNbEntries)
    (hz : hashIsZero h V.hlen = false) (hs : SameHash V.hlen (ent i) h)
    (he : hashIsZero e V.hlen = true)
    (hent : ∀ j < V.conf.htableNbEntries, SameHentry (ent' j) (if j = i then e else ent j)) :
    Named V (st.put V h none) (nm.put V h none) ent' := by
  apply hn.change (i := i) rfl
  · intro hused
    have hi' := hent i hi
    rw [if_pos rfl] at hi'
    rw [hashIsZero_congr (hi'.sameHash V.hlen_le), he] at hused
    cases hused
  · intro j hj hji
    have hj' := hent j hj
    rwa [if_neg hji] at hj'
  · intro j hj hji _ hh
    apply hji
    refine (hk.unique i hi j hj ?_ (hs.trans hh)).symm
    rw [hashIsZero_congr hs]
    exact hz

end Entries

/-! ## Sessions -/

/-- What sessions keep of the names: on disk between two sessions, and in memory within one. -/
structure Sys.Named (V : Volume) (st : Store) (nm : Names) (s : Sys) : Prop where
  disk : s.session = none → Admin.Named V st nm (V.diskEntry s.disk)
  session : s.Holds fun v _ => Admin.Named V st nm (V.memEntry v)

section Run

variable {V : Volume} {lib : MhashLib} {st : Store} {nm : Names} {s t : Sys} {e : Event}

/-- `actn_addfile` names the digest. -/
theorem Named.added {s : Session} {j : Token} {env : AddEnv} {cchk : Nat} {fhash : Hash512} {buf : Bytes}
    {l : List HtableEl} {el : HtableEl} {bt : Htable} {d : Members}
    (hn : Named V st nm (V.memEntry s.vol)) (hk : Keeps V st (V.memEntry s.vol) d) (ht : Table V s.vol)
    (hins : Inserts V lib j env s fhash buf) (hadd : Added s.vol.bt l fhash el bt) :
    Named V (st.after V lib (.token (.addObj j env))) (nm.after V lib (.token (.addObj j env)))
      (V.memEntry (inserted V j env cchk fhash el bt s)) := by
  obtain ⟨i, hi, rfl⟩ := ht.exists_slot hadd.inRange
  obtain ⟨tmpChk, htmp, hdig⟩ := hins.digest
  have hfile : addedFile V lib j env = some (fhash, ⟨env.stSize, env.data⟩) := by
    unfold addedFile
    simp only [htmp, hdig]
  simp only [Store.after, Names.after, hfile]
  exact hn.insert hk hi (hk.lookup_none ht.digests hins.fresh) (fileHentry_hash V.hlen_le) fileHentry_name
    fun k hk => memEntry_addHentry ht _ rfl rfl hi hk

/-- `actn_rmfile` takes the name away. -/
theorem Named.removed {v : VolInfo} {d : Members} {j : Token} {h : Hash512} {el : HtableEl} {al : Alist}
    (hn : Named V st nm (V.memEntry v)) (hk : Keeps V st (V.memEntry v) d) (ht : Table V v)
    (hparse : hashParse j.path Bytes.zeros V.hlen = some h) (hfound : shfsBtableLookup v.bt h = some el) :
    Named V (st.after V lib (.token (.rmObj j))) (nm.after V lib (.token (.rmObj j)))
      (V.memEntry (rmEntry V h el { v with al := al })) := by
  obtain ⟨i, hi, rfl, hs, hz, -⟩ := hk.lookup_some ht.digests hfound
  simp only [Store.after, Names.after, hparse]
  exact hn.remove hk hi hz hs (hashIsZero_hashClear _ _) fun k hk => memEntry_addHentry ht _ rfl rfl hi hk

/-- A token that returns 0 does to the names what it is for. -/
theorem named_token {v : VolInfo} {d : Members} {c : Bool} {a : Action} {r : Int × Session}
    (hn : Named V st nm (V.memEntry v)) (hk : Keeps V st (V.memEntry v) d) (hg : Good V v d)
    (hobj : a.isObj = true) (hrun : a.run V lib ⟨v, d, c⟩ = .ok r) (hret : r.1 = 0) :
    Named V (st.after V lib (.token a)) (nm.after V lib (.token a)) (V.memEntry r.2.vol) := by
  cases a with
  | addObj j env =>
      obtain ⟨cchk, hres⟩ := addfile_zero hrun hret
      cases effect_addfile hg.table hrun with
      | same hno => exact absurd hres (hno j env cchk rfl)
      | undone _ hneg _ => exact absurd hret (by simp only; omega)
      | copyFailed _ _ _ _ hneg => exact absurd hret (by simp only; omega)
      | added hres hins hadd _ _ => exact hn.added hk hg.table hins hadd
  | rmObj j =>
      obtain rfl := Except.ok.inj hrun
      obtain ⟨h, el, al, hparse, hfound, heq⟩ := rmfile_zero hret
      rw [heq]
      exact hn.removed hk hg.table hparse hfound
  | addLnk j env => cases hobj
  | setDefault j => cases hobj
  | clearDefault => cases hobj

/-- A step of sessions. -/
theorem named_step (hn : s.Named V st nm) (hs : s.Keeps V st) (hio : NoIoError V s e)
    (hzero : Succeeds V lib s e) (h : (sessions V lib).Step s e t) :
    t.Named V (st.after V lib e) (nm.after V lib e) := by
  obtain ⟨⟨hen, hcomp⟩, hnext⟩ := h
  cases e with
  | mount env =>
      obtain rfl | ⟨v, hv, rfl⟩ := mount_cases hnext
      · exact ⟨fun _ => hn.disk hen, Sys.holds_none _⟩
      · refine ⟨(fun hnone => by cases hnone), Sys.holds_some ?_⟩
        obtain ⟨hm, -⟩ := mountShfs_spec hcomp hv
        exact (hn.disk hen).moved fun i hi => (hm.cached _ (V.chunkNo_lt hi)).entry
  | token a =>
      obtain ⟨v, hv⟩ := hen
      obtain ⟨hobj, -, hret⟩ := hzero
      have hret := hret _ hv
      simp only [sessions_next, Sys.next, hv] at hnext
      unfold Action.returnsZero at hret
      cases hrun : a.run V lib ⟨v, s.disk, false⟩ with
      | error stop =>
          rw [hrun] at hret
          cases hret
      | ok r =>
          rw [hrun] at hnext hret
          obtain rfl := Except.ok.inj hnext
          refine ⟨(fun hnone => by cases hnone), Sys.holds_some ?_⟩
          exact named_token (hn.session v false hv) (hs.session v false hv)
            (hs.stored.ok.session v false hv) hobj hrun (beq_iff_eq.1 hret)
  | umount env =>
      obtain ⟨v, c, hv, rfl⟩ := umount_cases hen hnext
      have hg := hs.stored.ok.session v c hv
      have hu : umountShfs V env v s.disk = (true, (umountShfs V env v s.disk).2) :=
        Prod.ext (hio _ hv) rfl
      refine ⟨fun _ => ?_, Sys.holds_none _⟩
      exact (hn.session v c hv).moved fun i hi => hg.umounted hcomp hu hi

/-- A run does to the names what its events are for, by induction on its events. -/
theorem named_from {es : List Event} (hrun : ((sessions V lib).restrict fun s e =>
      NoIoError V s e ∧ Succeeds V lib s e ∧ Registers V e).Run s es t) (hs : s.Keeps V st)
    (hn : s.Named V st nm) :
    t.Named V (es.foldl (Store.after V lib) st) (es.foldl (Names.after V lib) nm) := by
  induction hrun generalizing st nm with
  | nil _ => exact hn
  | cons h1 _ ih =>
      obtain ⟨h1, hio, hzero, hreg⟩ := Machine.restrict_step.1 h1
      exact ih (keeps_step hs hio hzero hreg h1) (named_step hn hs hio hzero h1)

end Run

/-! ## Strings of a command line -/

/-- The arguments of a token are C strings. -/
def Token.CStrings (j : Token) : Prop := 0 ∉ j.path ∧ ∀ n ∈ j.optstr1, 0 ∉ n

def Event.CStrings : Event → Prop
  | .token (.addObj j _) => j.CStrings
  | _ => True

section Strings

variable {V : Volume} {lib : MhashLib} {nm : Names}

theorem basename_cstring {path : CString} (h : 0 ∉ path) : 0 ∉ basename path := by
  simp only [basename]
  split
  · decide
  split
  · decide
  · intro h0
    apply h
    have h1 := (List.takeWhile_sublist _).mem (List.mem_reverse.1 h0)
    simp only [List.mem_reverse] at h1
    have h2 := (List.dropWhile_sublist _).mem h1
    exact List.mem_reverse.1 h2

theorem Token.CStrings.name {j : Token} (h : j.CStrings) : 0 ∉ j.name := by
  unfold Token.name
  cases hn : j.optstr1 with
  | none => exact basename_cstring h.1
  | some n => exact h.2 n hn

theorem putName_cstring {fhash : Hash512} {x : Option CString} (hnm : ∀ h, ∀ n ∈ nm h, 0 ∉ n)
    (hx : ∀ n ∈ x, 0 ∉ n) : ∀ h, ∀ n ∈ nm.put V fhash x h, 0 ∉ n := by
  intro h n hn
  unfold Names.put at hn
  split at hn
  · exact hnm h n hn
  · exact hx n hn

theorem afterName_cstring {e : Event} (he : e.CStrings) (hnm : ∀ h, ∀ n ∈ nm h, 0 ∉ n) :
    ∀ h, ∀ n ∈ nm.after V lib e h, 0 ∉ n := by
  cases e with
  | mount env => exact hnm
  | umount env => exact hnm
  | token a =>
      cases a with
      | addObj j env =>
          simp only [Names.after]
          cases addedFile V lib j env with
          | none => exact hnm
          | some p => exact putName_cstring hnm fun n hn => Option.some.inj hn ▸ Token.CStrings.name he
      | rmObj j =>
          simp only [Names.after]
          cases hashParse j.path Bytes.zeros V.hlen with
          | none => exact hnm
          | some h => exact putName_cstring hnm fun n hn => by cases hn
      | addLnk j env => exact hnm
      | setDefault j => exact hnm
      | clearDefault => exact hnm

/-- The names of a volume are C strings, by induction on the events. -/
theorem names_cstring {es : List Event} (hes : ∀ e ∈ es, e.CStrings) (hnm : ∀ h, ∀ n ∈ nm h, 0 ∉ n) :
    ∀ h, ∀ n ∈ es.foldl (Names.after V lib) nm h, 0 ∉ n := by
  induction es generalizing nm with
  | nil => exact hnm
  | cons e es ih =>
      obtain ⟨he, hes⟩ := List.forall_mem_cons.1 hes
      exact ih hes (afterName_cstring he hnm)

end Strings

/-! ## The unikernel -/

/-- A path that `shfs_fio_open` takes for a name. -/
def IsName (path : CString) : Prop := path ≠ [] ∧ path.head? ≠ some shfsHashIndicatorPrefix ∧ 0 ∉ path

/-- The name as it is stored: its first 64 characters. -/
def storedName (n : CString) : CString := n.take Hentry.nameSize

/-- A mounted volume opens by a name exactly the files that were given it. -/
structure OpensNames (V : Volume) (ssize : Nat → Nat) (st : Store) (nm : Names) (d : Members)
    (vol : Vol) : Prop where
  found : ∀ path el, IsName path → shfsFioLookup vol path = some el →
    ∃ h f n, st h = some f ∧ nm h = some n ∧ storedName n = path ∧ shfsBtableLookup vol.bt h = some el ∧
      ReadsFile V ssize d (vol.hentry el) f
  missing : ∀ path, IsName path → shfsFioLookup vol path = none →
    ∀ h n, nm h = some n → storedName n ≠ path

section Unikernel

variable {V : Volume} {ssize : Nat → Nat} {st : Store} {nm : Names} {d : Members} {vol : Vol} {hdr : HdrCommon}

theorem shfsFioLookup_name {path : CString} (h : IsName path) :
    shfsFioLookup vol path = shfsLookupBentryByName vol path := by
  obtain ⟨hne, hhead, -⟩ := h
  have hdef : isDefaultPath path = false := by
    cases path with
    | nil => exact absurd rfl hne
    | cons c cs =>
        have hc : c ≠ shfsHashIndicatorPrefix := fun hc => hhead (by rw [hc]; rfl)
        simp [isDefaultPath, hc]
  unfold shfsFioLookup
  rw [hdef, if_neg Bool.false_ne_true, if_neg hhead]

/-- A slot answers to the path if the name of its digest was stored as the path. -/
theorem answers_iff {e : Hentry} {n path : CString} (hname : HasName e n) (hn : 0 ∉ n) (hp : 0 ∉ path) :
    (decide (path.length ≤ Hentry.nameSize) &&
      strncmpEq path (Bytes.window e Hentry.nameOff) Hentry.nameSize) = true ↔ storedName n = path := by
  rw [Bool.and_eq_true, decide_eq_true_eq]
  constructor
  · rintro ⟨hlen, hcmp⟩
    exact (strncmpEq_stored hp hn hlen hname).1 hcmp
  · intro heq
    have hlen : path.length ≤ Hentry.nameSize := by
      rw [← heq]
      exact List.length_take_le _ _
    exact ⟨hlen, (strncmpEq_stored hp hn hlen hname).2 heq⟩

/-- A table that keeps files and names opens them by name. -/
theorem Named.opens (hk : Keeps V st (V.diskEntry d) d) (hn : Named V st nm (V.diskEntry d))
    (hs : ∀ m < V.g.nbMembers, SsizeOk (ssize m)) (hd : Digests V vol.bt (V.diskEntry d))
    (hent : ∀ i < V.conf.htableNbEntries, SameHentry (vol.hentry (vol.slot i)) (V.diskEntry d i))
    {l : List HtableEl} (hl : vol.bt.Listed l) (hstr : ∀ h, ∀ n ∈ nm h, 0 ∉ n) :
    OpensNames V ssize st nm d vol := by
  have hused : ∀ i < V.conf.htableNbEntries,
      vol.bt.isFree (vol.slot i) = hashIsZero (V.diskEntry d i) V.hlen := fun i hi => by
    show hashIsZero (vol.bt.h (vol.bt.slot i)) vol.bt.hlen = _
    rw [hd.hlen]
    exact hashIsZero_congr (hd.same i hi)
  -- a slot in use stands for a file, and answers to its name
  have hslot : ∀ i < V.conf.htableNbEntries, hashIsZero (V.diskEntry d i) V.hlen = false →
      ∃ f n, st (V.diskEntry d i) = some f ∧ nm (V.diskEntry d i) = some n ∧
        FileAt V d (V.diskEntry d i) f ∧ HasName (vol.hentry (vol.slot i)) n := fun i hi hz => by
    obtain ⟨-, f, hst, hf⟩ := hk.listed i hi hz
    obtain ⟨n, hnm, hname⟩ := hn.named i hi hz
    exact ⟨f, n, hst, hnm, hf, hname.congr (hent i hi)⟩
  have hrange : ∀ {el}, vol.bt.InRange el → ∃ i < V.conf.htableNbEntries, vol.slot i = el := fun {el} hin => by
    obtain ⟨i, hi, hel⟩ := slot_surjective hin
    rw [hd.nbBkts, hd.elPerBkt, ← V.nbEntries_eq] at hi
    exact ⟨i, hi, hel⟩
  constructor
  case found =>
      intro path el hpath hfound
      rw [shfsFioLookup_name hpath] at hfound
      have hmem := shfsLookupBentryByName_used hl hfound
      have hcmp := List.find?_some hfound
      obtain ⟨hin, hfree⟩ := (hl.mem el).1 hmem
      obtain ⟨i, hi, rfl⟩ := hrange hin
      rw [hused i hi] at hfree
      obtain ⟨f, n, hst, hnm, hf, hname⟩ := hslot i hi hfree
      refine ⟨_, f, n, hst, hnm, (answers_iff hname (hstr _ n hnm) hpath.2.2).1 hcmp, ?_,
        (hf.congr (hent i hi)).reads hs⟩
      have hsome : (shfsBtableLookup vol.bt (V.diskEntry d i)).isSome := by
        rw [hk.lookup_isSome hd, hst]
        rfl
      obtain ⟨el, hel⟩ := Option.isSome_iff_exists.1 hsome
      obtain ⟨j, hj, rfl, hsame, -⟩ := hk.lookup_some hd hel
      rw [hel, hk.unique i hi j hj hfree hsame.symm]
      rfl
  case missing =>
      intro path hpath hnone h n hnm hstored
      rw [shfsFioLookup_name hpath] at hnone
      have hbound := hn.bound h
      rw [hnm] at hbound
      obtain ⟨f, hst⟩ := Option.isSome_iff_exists.1 hbound.symm
      obtain ⟨hz, i, hi, hsame⟩ := hk.found h f hst
      rw [← hashIsZero_congr hsame] at hz
      obtain ⟨g, n', -, hnm', -, hname⟩ := hslot i hi hz
      rw [hn.congr _ _ hsame, hnm] at hnm'
      obtain rfl := Option.some.inj hnm'
      have hin : vol.bt.InRange (vol.slot i) := by
        apply slot_inRange
        rw [hd.nbBkts, hd.elPerBkt, ← V.nbEntries_eq]
        exact hi
      have hmem : vol.slot i ∈ foreachHtableEl vol.bt := by
        rw [foreachHtableEl_eq hl, hl.mem, hused i hi]
        exact ⟨hin, hz⟩
      have hno := List.find?_eq_none.1 hnone _ hmem
      exact hno ((answers_iff hname (hstr h n hnm) hpath.2.2).2 hstored)

/-- The table that a unikernel has mounted is the one on the members. -/
theorem mounted_table {uenv : Shfs.MountEnv} {out : Mount.Mounted} {uuid : Nat → Uuid} {n : Nat}
    (hs : ∀ m < V.g.nbMembers, SsizeOk (ssize m))
    (hatt : Attached V (newHdrCommon V.args.geom uuid n) ssize d uenv)
    (hmount : Mount.mountShfs uenv false = .ok out) (hmounted : out.shfsMounted = true) :
    ∃ vol, out.vol = some vol ∧ Digests V vol.bt (V.diskEntry d) ∧
      (∀ i < V.conf.htableNbEntries, SameHentry (vol.hentry (vol.slot i)) (V.diskEntry d i)) ∧
      ∃ l, vol.bt.Listed l := by
  obtain ⟨info, log, hdr, conf, vol, hcconf, hchk1, hload, htable, hvol⟩ := mountShfs_loaded hmount hmounted
  obtain ⟨label, hacc, hof⟩ := loadVolCconf_label hcconf
  obtain ⟨dev, -, hlabel⟩ := Option.bind_eq_some_iff.1 hacc.first
  obtain ⟨m, -, rfl⟩ := hatt.label dev label hlabel
  obtain rfl := hatt.config hdr hchk1
  rw [geom_of_label hof, loadVolHconf_hdr] at hload
  obtain rfl := Except.ok.inj hload
  have hall : ∀ c < V.htableLen, (uenv.chunk (V.conf.htableChunk c)).isSome = true := by
    by_contra hno
    rw [Shfs.loadVolHtable_eio hno] at htable
    cases htable
  obtain ⟨vol', hvol', hd, hent⟩ := loadVolHtable_members hs hatt.chunk hall
  obtain ⟨vol'', hvol'', -, -, hloaded⟩ := Shfs.loadVolHtable_spec V.conf uenv.chunk hall
  rw [hvol'] at htable hvol''
  obtain rfl := Except.ok.inj (Except.ok.inj htable)
  obtain rfl := Except.ok.inj (Except.ok.inj hvol'')
  exact ⟨vol', hvol, hd, hent, _, hloaded.listed⟩

end Unikernel

/-- What the tools store under a name is what the unikernel opens by it, whatever is added and removed in
however many sessions, as long as every container gets its place on the allocator list. By a name it opens a
stored file whose name, cut at 64 characters, is that name, and reads its bytes; where it finds none, no
stored file has the name. The tokens return 0, and no transfer fails or stops short. -/
theorem names_read_back {a : MkfsArgs} {size : Nat → UInt64} {menv : MkfsEnv} {v : Mkfs}
    (h : mkfs a size menv = some v) {lib : MhashLib} {config : HdrConfig → Bytes}
    {common : HdrCommon → Bytes} {d₀ d : Members} {es : List Event}
    (hrun : ((sessions (Volume.ofMkfs h) lib).restrict fun s e =>
      NoIoError (Volume.ofMkfs h) s e ∧ Succeeds (Volume.ofMkfs h) lib s e ∧
        Registers (Volume.ofMkfs h) e).Run ⟨writeAll config common v.writes d₀, none⟩ es ⟨d, none⟩)
    (hstr : ∀ e ∈ es, e.CStrings) {ssize : Nat → Nat} {uenv : Shfs.MountEnv} {out : Mount.Mounted}
    (hs : ∀ m < (Volume.ofMkfs h).g.nbMembers, SsizeOk (ssize m))
    (hatt : Attached (Volume.ofMkfs h) v.hdrCommon ssize d uenv)
    (hmount : Mount.mountShfs uenv false = .ok out) (hmounted : out.shfsMounted = true) :
    ∃ vol, out.vol = some vol ∧ OpensNames (Volume.ofMkfs h) ssize (storeOf (Volume.ofMkfs h) lib es)
      (namesOf (Volume.ofMkfs h) lib es) d vol := by
  have hnew := formatted_ofMkfs h config common d₀
  have hkeeps := keeps_from hrun (keeps_new hnew)
  have hnone : Sys.Named (Volume.ofMkfs h) (fun _ => none) (fun _ => none)
      ⟨writeAll config common v.writes d₀, none⟩ :=
    ⟨fun _ => named_unused fun _ hi => hnew.unused hi, Sys.holds_none _⟩
  have hnamed := named_from hrun (keeps_new hnew) hnone
  obtain ⟨n, hlabel⟩ := mkfs_label h
  rw [hlabel] at hatt
  obtain ⟨vol, hvol, hd, hent, l, hl⟩ := mounted_table hs hatt hmount hmounted
  refine ⟨vol, hvol, (hnamed.disk rfl).opens (hkeeps.disk rfl) hs hd hent hl ?_⟩
  exact names_cstring hstr fun _ _ hn => by cases hn

/-- The two sessions add two files named `a`, and remove the first. -/
theorem names_read_back_two : ∃ d out vol, ((sessions twoVolume onesLib).restrict fun s e =>
      NoIoError twoVolume s e ∧ Succeeds twoVolume onesLib s e ∧ Registers twoVolume e).Run
      ⟨formattedMembers, none⟩ twoSessions ⟨d, none⟩ ∧
    Mount.mountShfs (plainUnikernel twoVolume twoChunks.hdrCommon d) false = .ok out ∧
    out.vol = some vol ∧
    OpensNames twoVolume (fun _ => 512) (storeOf twoVolume onesLib twoSessions)
      (namesOf twoVolume onesLib twoSessions) d vol ∧
    namesOf twoVolume onesLib twoSessions (fun _ => 1) = none ∧
    namesOf twoVolume onesLib twoSessions (fun _ => 2) = some [97] ∧
    (shfsFioLookup vol [97]).isSome = true ∧ (shfsFioLookup vol [98]).isNone = true := by
  have hexec := @sessions_exec twoVolume onesLib (fun s e => NoIoError twoVolume s e ∧
      Succeeds twoVolume onesLib s e ∧ Registers twoVolume e) _ ⟨formattedMembers, none⟩ twoSessions
    (fun s => s.session.isNone &&
      (Mount.mountShfs (plainUnikernel twoVolume twoChunks.hdrCommon s.disk) false).toOption.any fun out =>
        out.shfsMounted && out.vol.any fun vol =>
          (shfsFioLookup vol [97]).isSome && (shfsFioLookup vol [98]).isNone)
    (by decide +kernel) twoSessions_complete
  obtain ⟨⟨d, session⟩, hrun, hp⟩ := hexec
  obtain ⟨hnone, hopen⟩ := Bool.and_eq_true_iff.1 hp
  obtain rfl : session = none := Option.isNone_iff_eq_none.1 hnone
  obtain ⟨out, hmount, hopen⟩ := ok_of_any hopen
  obtain ⟨hmounted, hopen⟩ := Bool.and_eq_true_iff.1 hopen
  obtain ⟨vol, hvol, hfound⟩ := (Option.any_eq_true _ _).1 hopen
  obtain ⟨hfound, hmissing⟩ := Bool.and_eq_true_iff.1 hfound
  have hstr : ∀ e ∈ twoSessions, e.CStrings := by
    have htoken : ∀ digit : UInt8, ({ plainToken [97] with optstr2 := some [48, digit] } : Token).CStrings :=
      fun _ => ⟨(by decide : (0 : UInt8) ∉ [97]), fun n hn => by cases hn⟩
    simp only [twoSessions, addByte, List.forall_mem_cons, Event.CStrings, htoken, true_and]
    exact fun _ hno => absurd hno List.not_mem_nil
  obtain ⟨vol', hvol', hopens⟩ := names_read_back twoChunks_eq hrun hstr
    (fun _ _ => (⟨9, by decide, by decide, rfl⟩ : Shfs.SsizeOk 512)) (plainUnikernel_attached _ _ d) hmount hmounted
  obtain rfl : vol = vol' := Option.some.inj (hvol.symm.trans hvol')
  exact ⟨d, out, vol, hrun, hmount, hvol, hopens, by decide +kernel, by decide +kernel, hfound, hmissing⟩

end Minipython.Tools.Admin
