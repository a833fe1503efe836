/-
# Minipython.Tools.Undo — what a failed action leaves behind (shfs_admin.c)

An action that returns a negative value should have changed nothing. For all of them but one it is so,
because they test everything before they change anything. `actn_addfile` reserves the container first
and inserts the entry before it copies the contents: when the copy fails it gives the container back,
but the entry stays, and refers to chunks that the next file can take.

`failed_unchanged_iff` says when the action has undone all it did. The other condition is about the
registration, whose result is not tested: without memory for the list entry nothing was registered, and
what is given back is then an equal range of another object, if there is one.

`Unchanged` compares everything a session has: the digests in the slots, the bytes of the entries in use,
the default object and the ranges on the allocator list as a multiset. The order in which the list has equal
ranges, and memory that is not in use, may differ. The state is any that a run of sessions reaches, whatever
has failed before and however short transfers were cut.

The proof goes by the effect of the action: one that does nothing, one that takes a container and gives it
back, and one that has inserted its entry when it fails (`effect_of_run`).
-/
import Minipython.Tools.Mounting
import Minipython.Tools.Effect

namespace Minipython.Tools.Admin

open Minipython.Lib
open Minipython.Shfs
open Htable

/-! ## The table along a run -/

section Run

variable {V : Volume} {lib : MhashLib} {s t : Sys} {e : Event}

/-- What a session holds. -/
def Sys.Holds (P : VolInfo → Members → Prop) (s : Sys) : Prop := ∀ v c, s.session = some (v, c) → P v s.disk

/-- A token that a session takes, and that ends the process or returns. -/
theorem token_cases {a : Action} {v : VolInfo} {c : Bool} (hs : s.session = some (v, c))
    (h : (sessions V lib).next s (.token a) = .ok t) :
    t = ⟨s.disk, none⟩ ∨ ∃ ret s', a.run V lib ⟨v, s.disk, c⟩ = .ok (ret, s') ∧
      t = ⟨s'.disk, some (s'.vol, s'.cancel)⟩ := by
  simp only [sessions_next, Sys.next, hs] at h
  cases hrun : a.run V lib ⟨v, s.disk, c⟩ with
  | error stop =>
      rw [hrun] at h
      cases stop with
      | died => exact .inl (Except.ok.inj h).symm
      | fault f => cases h
  | ok r =>
      rw [hrun] at h
      exact .inr ⟨r.1, r.2, rfl, (Except.ok.inj h).symm⟩

theorem token_effect {a : Action} {v : VolInfo} {c : Bool} (hs : s.session = some (v, c))
    (ht : Table V v) (h : (sessions V lib).next s (.token a) = .ok t) :
    (t = ⟨s.disk, none⟩) ∨ ∃ ret s', Effect V lib ⟨v, s.disk, c⟩ a (ret, s') ∧
      t = ⟨s'.disk, some (s'.vol, s'.cancel)⟩ := by
  rcases token_cases hs h with hdied | ⟨ret, s', hrun, ht'⟩
  · exact .inl hdied
  · exact .inr ⟨ret, s', effect_of_run ht hrun, ht'⟩

/-- A mount that does not end the process. -/
theorem mount_cases {env : MountEnv} (h : (sessions V lib).next s (.mount env) = .ok t) :
    t = ⟨s.disk, none⟩ ∨ ∃ v, mountShfs V env s.disk = .ok v ∧ t = ⟨s.disk, some (v, false)⟩ := by
  simp only [sessions_next, Sys.next] at h
  cases hm : mountShfs V env s.disk with
  | error stop =>
      rw [hm] at h
      cases stop with
      | died => exact .inl (Except.ok.inj h).symm
      | fault f => cases h
  | ok v =>
      rw [hm] at h
      exact .inr ⟨v, rfl, (Except.ok.inj h).symm⟩

theorem step_mount {env : MountEnv} {d : Members} {v : VolInfo} (hio : env.Complete)
    (h : mountShfs V env d = .ok v) :
    (sessions V lib).Step ⟨d, none⟩ (.mount env) ⟨d, some (v, false)⟩ := by
  refine ⟨⟨rfl, hio⟩, ?_⟩
  simp only [sessions_next, Sys.next, h]

/-- A step keeps the table, also one whose transfers are cut short. -/
theorem table_step (hs : s.Holds fun v _ => Table V v) (h : (anySessions V lib).Step s e t) :
    t.Holds fun v _ => Table V v := by
  obtain ⟨hen, hnext⟩ := h
  cases e with
  | mount env =>
      obtain rfl | ⟨w, hw, rfl⟩ := @mount_cases V lib _ _ _ hnext
      · intro v c hv
        cases hv
      · intro v c hv
        obtain ⟨rfl, -⟩ := Prod.mk.inj (Option.some.inj hv)
        exact mountShfs_table hw
  | token a =>
      obtain ⟨v, hv⟩ := hen
      have ht := hs v false hv
      obtain rfl | ⟨ret, s', heff, rfl⟩ := token_effect hv ht hnext
      · intro w c hw
        cases hw
      · intro w c hw
        obtain ⟨rfl, -⟩ := Prod.mk.inj (Option.some.inj hw)
        exact heff.table ht
  | umount env =>
      have hnone : t.session = none := by
        simp only [anySessions, Sys.next] at hnext
        split at hnext
        · obtain rfl := Except.ok.inj hnext
          rfl
        · exact absurd ‹s.session = none› hen
      intro v c hv
      rw [hnone] at hv
      cases hv

/-- Every session has the table of its volume. -/
theorem table_of_run {d : Members} {es : List Event} (h : (anySessions V lib).Run ⟨d, none⟩ es s) :
    s.Holds fun v _ => Table V v := by
  apply h.invariant (I := Sys.Holds fun v _ => Table V v) fun _ _ _ hs hstep => table_step hs hstep
  intro v c hv
  cases hv

end Run

/-! ## Unchanged sessions -/

/-- Nothing has changed: the same digests are found, the entries in use have the same bytes, the default
entry is the same, and so are the ranges of the allocator list. -/
structure Unchanged (s s' : Session) : Prop where
  digests : ∀ h, (shfsBtableLookup s'.vol.bt h).isSome = (shfsBtableLookup s.vol.bt h).isSome
  hentries : ∀ h el, shfsBtableLookup s.vol.bt h = some el →
    shfsBtableLookup s'.vol.bt h = some el ∧ SameHentry (s'.vol.hentry el) (s.vol.hentry el)
  defBentry : s'.vol.defBentry = s.vol.defBentry
  ranges : s'.vol.al.entries.Perm s.vol.al.entries

theorem Unchanged.of_ranges {s : Session} {al : Alist} {d : Members} {c : Bool}
    (h : al.entries.Perm s.vol.al.entries) : Unchanged s ⟨{ s.vol with al := al }, d, c⟩ where
  digests := fun _ => rfl
  hentries := fun _ _ hel => ⟨hel, SameHentry.refl _⟩
  defBentry := rfl
  ranges := h

/-- When an action that fails undoes what it did: the entry of a new file has not been inserted, and its
container could be registered, or no range on the list is equal to it. -/
def Undoes (V : Volume) (lib : MhashLib) (s : Session) : Action → Prop
  | .addObj j env => ∀ cchk, Reserves V env s cchk → (∀ fhash buf, ¬ Inserts V lib j env s fhash buf) ∧
      (env.regMem = true ∨ aentryOf cchk (env.csize V) ∉ s.vol.al.entries)
  | _ => True

section Release

variable {V : Volume} {env : AddEnv} {s : Session} {cchk : Nat} {c : Bool}

/-- What is left of the list when the container is given back. -/
theorem release_reserve_iff :
    (releaseContainer { reserve V env cchk s with cancel := c } cchk (env.csize V)).vol.al.entries.Perm
        s.vol.al.entries ↔
      env.regMem = true ∨ aentryOf cchk (env.csize V) ∉ s.vol.al.entries := by
  cases hm : env.regMem with
  | true =>
      obtain ⟨al, hal, hperm, -, -⟩ := unregister_register s.vol.al cchk (env.csize V)
      have hrel : releaseContainer { reserve V env cchk s with cancel := c } cchk (env.csize V) =
          { reserve V env cchk s with vol := { s.vol with al := al }, cancel := c } := by
        unfold releaseContainer reserve
        rw [hm, hal]
      rw [hrel]
      exact ⟨fun _ => .inl rfl, fun _ => hperm⟩
  | false =>
      have hres : (reserve V env cchk s).vol.al = s.vol.al := by
        unfold reserve shfsAlistRegister
        rw [hm]
        rfl
      by_cases hmem : aentryOf cchk (env.csize V) ∈ s.vol.al.entries
      · -- a range that was on the list before is taken off
        have hal : (releaseContainer { reserve V env cchk s with cancel := c } cchk
            (env.csize V)).vol.al.entries = s.vol.al.entries.erase (aentryOf cchk (env.csize V)) := by
          unfold releaseContainer shfsAlistUnregister
          simp only [hres, if_pos hmem]
        rw [hal]
        constructor
        · intro hperm
          have hlen := hperm.length_eq
          rw [List.length_erase_of_mem hmem] at hlen
          have hpos := List.length_pos_of_mem hmem
          omega
        · rintro (h | h)
          · cases h
          · exact absurd hmem h
      · have hal : (releaseContainer { reserve V env cchk s with cancel := c } cchk
            (env.csize V)).vol.al.entries = s.vol.al.entries := by
          unfold releaseContainer shfsAlistUnregister
          simp only [hres, if_neg hmem]
        rw [hal]
        exact ⟨fun _ => .inr hmem, fun _ => List.Perm.refl _⟩

end Release

/-- A failed action has changed nothing exactly if it undoes what it did. The state is any of a run of
sessions on any members, with failures and short transfers on the way; so is the action, as long as it
returns a negative value. Undoing is asked of `add-obj` only, and only where it has taken a container. -/
theorem failed_unchanged_iff {V : Volume} {lib : MhashLib} {d₀ : Members} {es : List Event} {s : Sys}
    {v : VolInfo} {c : Bool} {a : Action} {ret : Int} {s' : Session}
    (hrun : (anySessions V lib).Run ⟨d₀, none⟩ es s) (hs : s.session = some (v, c))
    (ha : a.run V lib ⟨v, s.disk, c⟩ = .ok (ret, s')) (hret : ret < 0) :
    Unchanged ⟨v, s.disk, c⟩ s' ↔ Undoes V lib ⟨v, s.disk, c⟩ a := by
  have ht : Table V v := table_of_run hrun v c hs
  have heff := effect_of_run (s := ⟨v, s.disk, c⟩) ht ha
  generalize hr : (ret, s') = r at heff
  cases heff with
  | @same a ret' hno =>
      obtain ⟨-, rfl⟩ := Prod.mk.inj hr
      refine ⟨fun _ => ?_, fun _ => .of_ranges (List.Perm.refl _)⟩
      cases a with
      | addObj j env => exact fun cchk hres => absurd hres (hno j env cchk rfl)
      | _ => trivial
  | @undone j env cchk ret' cancel hres _ hno =>
      obtain ⟨-, rfl⟩ := Prod.mk.inj hr
      have hiff := @release_reserve_iff V env ⟨v, s.disk, c⟩ cchk cancel
      constructor
      · intro hun cchk' hres'
        obtain rfl := Option.some.inj (hres.found.symm.trans hres'.found)
        exact ⟨hno, hiff.1 hun.ranges⟩
      · intro hund
        obtain ⟨al, hal⟩ := releaseContainer_parts
          { reserve V env cchk ⟨v, s.disk, c⟩ with cancel := cancel } cchk (env.csize V)
        have hperm := hiff.2 (hund cchk hres).2
        rw [hal] at hperm ⊢
        exact .of_ranges hperm
  | @copyFailed j env cchk fhash buf l el bt ret' d cancel hres hins hadd _ _ =>
      obtain ⟨-, rfl⟩ := Prod.mk.inj hr
      refine ⟨fun hun => ?_, fun hund => absurd hins ((hund cchk hres).1 fhash buf)⟩
      -- the digest of the file is found now
      have hfound : shfsBtableLookup bt fhash = some el := hadd.lookup_self hins.fresh
      have hd := hun.digests fhash
      obtain ⟨al, hal⟩ := releaseContainer_parts
        ⟨inserted V j env cchk fhash el bt ⟨v, s.disk, c⟩, d, cancel⟩ cchk (env.csize V)
      rw [hal] at hd
      change (shfsBtableLookup bt fhash).isSome = (shfsBtableLookup v.bt fhash).isSome at hd
      have hfresh : shfsBtableLookup v.bt fhash = none := hins.fresh
      rw [hfound, hfresh] at hd
      cases hd
  | added _ _ _ _ hpos =>
      obtain ⟨rfl, -⟩ := Prod.mk.inj hr
      omega
  | linked _ _ _ _ =>
      obtain ⟨rfl, -⟩ := Prod.mk.inj hr
      cases hret
  | removedLink _ _ _ =>
      obtain ⟨rfl, -⟩ := Prod.mk.inj hr
      cases hret
  | removed _ _ _ _ =>
      obtain ⟨rfl, -⟩ := Prod.mk.inj hr
      cases hret
  | defaultCleared _ =>
      obtain ⟨rfl, -⟩ := Prod.mk.inj hr
      cases hret
  | defaultSet _ _ =>
      obtain ⟨rfl, -⟩ := Prod.mk.inj hr
      cases hret

/-- Without memory for the I/O buffer the container is given back. -/
theorem failed_unchanged_iff_nomem : ∃ s v s',
    (anySessions tinyVolume onesLib).Run ⟨fun _ _ => 0, none⟩ [.mount plainMount] s ∧
      s.session = some (v, false) ∧
      (Action.addObj (plainToken [97]) { plainFile 1 (by decide) with tmpChk := none }).run tinyVolume
        onesLib ⟨v, s.disk, false⟩ = .ok (-1, s') ∧
      Unchanged ⟨v, s.disk, false⟩ s' := by
  have hexec := @Machine.Run.of_exec_any Sys Event Fault (anySessions tinyVolume onesLib) _
    ⟨fun _ _ => 0, none⟩ [.mount plainMount] (fun s => s.inSession fun v =>
      ((Action.addObj (plainToken [97]) { plainFile 1 (by decide) with tmpChk := none }).run
        tinyVolume onesLib ⟨v, s.disk, false⟩).toOption.any fun r => r.1 == -1) (by decide +kernel)
  rcases hexec with ⟨s, hrun, hp⟩
  rcases Sys.inSession_spec hp with ⟨v, hs, hp⟩
  rcases ok_of_any hp with ⟨⟨ret, s'⟩, ha, hret⟩
  rcases beq_iff_eq.1 hret
  refine ⟨s, v, s', hrun, hs, ha, (failed_unchanged_iff hrun hs ha (by decide)).2 ?_⟩
  intro cchk _
  refine ⟨fun fhash buf hins => ?_, .inl rfl⟩
  obtain ⟨_, hbuf, -⟩ := hins.digest
  cases hbuf

/-- A file of one byte whose second reading fails. -/
def unreadableFile : AddEnv := { byteFile with copyRead := fun _ => none }

/-- `add-obj` of that file on a fresh volume returns `-1` and leaves an entry that is found. -/
theorem addfile_leaves_entry : ∃ s v s', (anySessions tinyVolume onesLib).Run ⟨fun _ _ => 0, none⟩
      [.mount plainMount] s ∧ s.session = some (v, false) ∧
    (Action.addObj (plainToken [97]) unreadableFile).run tinyVolume onesLib ⟨v, s.disk, false⟩ =
      .ok (-1, s') ∧
    ¬ Unchanged ⟨v, s.disk, false⟩ s' := by
  have hexec := @Machine.Run.of_exec_any Sys Event Fault (anySessions tinyVolume onesLib) _ ⟨fun _ _ => 0, none⟩
    [.mount plainMount] (fun s => s.inSession fun v =>
      ((Action.addObj (plainToken [97]) unreadableFile).run tinyVolume onesLib
        ⟨v, s.disk, false⟩).toOption.any fun r => r.1 == -1 && (shfsBtableLookup v.bt fun _ => 1).isNone &&
          (shfsBtableLookup r.2.vol.bt fun _ => 1).isSome) (by decide +kernel)
  rcases hexec with ⟨s, hrun, hp⟩
  rcases Sys.inSession_spec hp with ⟨v, hs, hp⟩
  rcases ok_of_any hp with ⟨⟨ret, s'⟩, ha, hp⟩
  simp only [Bool.and_eq_true, beq_iff_eq] at hp
  rcases hp with ⟨⟨rfl, hnone⟩, hsome⟩
  refine ⟨s, v, s', hrun, hs, ha, fun hun => ?_⟩
  have hd := hun.digests fun _ => 1
  rw [hsome, Option.isNone_iff_eq_none.1 hnone] at hd
  cases hd

end Minipython.Tools.Admin
