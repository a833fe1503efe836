/-
# Minipython.Mods.Ether — network interfaces and their vifs (modlwip.c)

An interface is added by the constructor of `ether`, by `bind` for an address that no interface has, and by
the first `connect`. `lwip_addif` looks for a vif in Xenstore: one whose `ip` entry is the address, else
the next one without an entry.

`lwip_find_ip` answers with a status, which `lwip_addif` takes for a vif; `lwip_find_next_noip` also looks
at the number behind the last vif. `Good` is the condition under which neither does harm.

`Bound` is what the interfaces should be: each has a vif that exists and that no other has, the one whose
entry is its address if there is one. `Tracked` is what holds in any case, and lets a bad call be seen in
every later state (`Bound.back`). So the interfaces are bound as they should be after a run exactly if each
of its calls was good.

Xenstore does not change during a run. It is a function from the number of a vif to its entry, with no entry
behind the last vif; reading the own domid may fail, in which case nothing is added.
-/
import Minipython.Lib.Machine

namespace Minipython.Mods

open Minipython.Lib

/-! ## Xenstore and interfaces -/

/-- What Xenstore says: the domain id, or -1 if it cannot be read, and the `ip` entries of the vifs. -/
structure Xenstore where
  domid : Int
  vifs : List (Option String)

namespace Xenstore

/-- The entry `/local/domain/0/backend/vif/<domid>/<i>/ip`. -/
def ip (xs : Xenstore) (i : Nat) : Option String := xs.vifs[i]?.join

/-- The loop that counts the vifs. -/
def nVifs (xs : Xenstore) : Nat := xs.vifs.length

end Xenstore

/-- The fields of `lwip_ether_obj_t` that tell interfaces apart. -/
structure Ether where
  vifId : Nat
  ip : UInt32
  mask : UInt32
  gw : UInt32
  deriving DecidableEq, Repr

/-- What lwIP does with addresses. -/
structure Lwip where
  /-- `ip4addr_ntoa_r` -/
  ntoa : UInt32 → String
  /-- `ipaddr_aton` -/
  aton : String → Option UInt32
  islinklocal : UInt32 → Bool
  ismulticast : UInt32 → Bool
  isbroadcast : UInt32 → Ether → Bool
  ntoa_any : ∀ ip, ntoa ip = "0.0.0.0" ↔ ip = 0

/-- `lwip_ether_objs` and the static offset of `lwip_addif`. -/
structure Ethers where
  objs : List Ether
  noipOff : Nat

/-- `ETHER_MAX`. -/
def etherMax : Nat := 4

/-- `lwip_find_ip`, with what it leaves in `found_ip`. -/
def lwipFindIp (xs : Xenstore) (ip : String) : Int × String :=
  if xs.domid = -1 then (-1, "")
  else
    -- for 0.0.0.0 any entry will do
    match (List.range (xs.nVifs + 1)).findSome? fun i =>
        (xs.ip i).filter fun res => ip = "0.0.0.0" ∨ ip = res with
    | some res => (0, res)
    | none => (-1, "")

/-- `lwip_find_next_noip`. -/
def lwipFindNextNoip (xs : Xenstore) (offset : Nat) : Int :=
  if xs.domid = -1 then -1
  else
    match (List.range' offset (xs.nVifs + 1 - offset)).find? fun i => (xs.ip i).isNone with
    | some i => i
    | none => -1

/-- The exceptions of `lwip_addif`. -/
inductive EtherErr where
  | maxReached
  | noInterface
  deriving DecidableEq, Repr

section Calls

variable (L : Lwip) (xs : Xenstore)

/-- `lwip_addif`. -/
def lwipAddif (s : Ethers) (ip mask gw : UInt32) : Except EtherErr Ethers :=
  if etherMax ≤ s.objs.length then .error .maxReached
  else
    let found := lwipFindIp xs (L.ntoa ip)
    let addr := if ip ≠ 0 then ip else (L.aton found.2).getD 0xc0a80037
    if found.1 < 0 then
      let vifnum := lwipFindNextNoip xs s.noipOff
      if vifnum < 0 then .error .noInterface
      else .ok ⟨s.objs ++ [⟨vifnum.toNat, addr, mask, gw⟩], vifnum.toNat + 1⟩
    else .ok ⟨s.objs ++ [⟨found.1.toNat, addr, mask, gw⟩], s.noipOff⟩

/-- `lwip_address_bindable`. -/
def lwipAddressBindable (s : Ethers) (ip : UInt32) : Bool :=
  if L.islinklocal ip then true
  else if s.objs.length = 0 then false
  else if ip = 0 then true
  else if L.ismulticast ip then true
  else if s.objs.any (L.isbroadcast ip) then true
  else s.objs.any fun o => o.ip == ip

/-- The calls that may add an interface, behind the checks of their other arguments. -/
inductive EtherCall where
  | ether (ip mask gw : UInt32)
  | bind (ip : UInt32)
  | connect

/-- The address, mask and gateway with which `lwip_addif` is called, if it is. -/
def request (s : Ethers) : EtherCall → Option (UInt32 × UInt32 × UInt32)
  | .ether ip mask gw => some (ip, mask, gw)
  | .bind ip => if lwipAddressBindable L s ip then none else some (ip, 0xffffff00, 0)
  -- the mask is passed for the gateway as well
  | .connect => if s.objs.length = 0 then some (0, 0xffffff00, 0xffffff00) else none

/-- The interfaces, and for each the address it was asked for. -/
structure EtherLog where
  ethers : Ethers
  asked : List UInt32

/-- No interfaces yet. -/
def EtherLog.init : EtherLog := ⟨⟨[], 0⟩, []⟩

/-- A call; an exception leaves everything as it was. -/
def etherNext (s : EtherLog) (c : EtherCall) : EtherLog :=
  match request L s.ethers c with
  | none => s
  | some (ip, mask, gw) =>
      match lwipAddif L xs s.ethers ip mask gw with
      | .error _ => s
      | .ok e => ⟨e, s.asked ++ [ip]⟩

/-- The interfaces under their callers. -/
def ethers : Machine EtherLog EtherCall Empty := ⟨fun _ _ => True, fun s c => .ok (etherNext L xs s c)⟩

/-! ## What is wanted, and when it holds -/

/-- Each interface is bound to a vif that exists, to one with its address if there is one, and alone. -/
structure Bound (s : EtherLog) : Prop where
  exists_vif : ∀ o ∈ s.ethers.objs, o.vifId < xs.nVifs
  entry : ∀ b ∈ s.asked.zip s.ethers.objs, b.1 ≠ 0 → some (L.ntoa b.1) ∈ xs.vifs →
    xs.ip b.2.vifId = some (L.ntoa b.1)
  alone : (s.ethers.objs.map (·.vifId)).Nodup

/-- Some vif has the address in its entry, or any entry at all if the address is 0.0.0.0. -/
def HasEntry (ip : UInt32) : Prop :=
  if ip = 0 then ∃ e ∈ xs.vifs, e ≠ none else some (L.ntoa ip) ∈ xs.vifs

/-- The first vif without an entry from `off` on is `i`. -/
def NextNoip (off i : Nat) : Prop :=
  off ≤ i ∧ xs.ip i = none ∧ ∀ j, j < i → off ≤ j → xs.ip j ≠ none

/-- A request that adds an interface either finds the address at vif 0, or finds no entry and there is a vif
without one; no interface has that vif. -/
def GoodFor (s : Ethers) (ip : UInt32) : Prop :=
  s.objs.length < etherMax → xs.domid ≠ -1 →
    (HasEntry L xs ip → (ip ≠ 0 → xs.ip 0 = some (L.ntoa ip)) ∧ ∀ o ∈ s.objs, o.vifId ≠ 0) ∧
    (¬ HasEntry L xs ip → ∃ i, i < xs.nVifs ∧ NextNoip xs s.noipOff i ∧ ∀ o ∈ s.objs, o.vifId ≠ i)

/-- A call makes no request, or a good one. -/
def Good (s : EtherLog) (c : EtherCall) : Prop :=
  match request L s.ethers c with
  | none => True
  | some r => GoodFor L xs s.ethers r.1

end Calls

/-! ## The searches -/

section Searches

variable {L : Lwip} {xs : Xenstore} {ip : UInt32}

theorem Xenstore.ip_eq_some {i : Nat} {r : String} : xs.ip i = some r ↔ xs.vifs[i]? = some (some r) :=
  Option.join_eq_some_iff

theorem mem_vifs_iff {r : String} : some r ∈ xs.vifs ↔ ∃ i, i < xs.nVifs ∧ xs.ip i = some r := by
  constructor
  · intro h
    obtain ⟨i, hi⟩ := List.mem_iff_getElem?.1 h
    exact ⟨i, (List.getElem?_eq_some_iff.1 hi).1, Xenstore.ip_eq_some.2 hi⟩
  · rintro ⟨i, -, hi⟩
    exact List.mem_iff_getElem?.2 ⟨i, Xenstore.ip_eq_some.1 hi⟩

/-- There is no vif behind the last one. -/
theorem Xenstore.ip_nVifs (xs : Xenstore) : xs.ip xs.nVifs = none := by
  show (xs.vifs[xs.vifs.length]?).join = none
  rw [List.getElem?_eq_none (Nat.le_refl _)]
  rfl

/-- The status of `lwip_find_ip`. -/
theorem lwipFindIp_fst (hdom : xs.domid ≠ -1) :
    (HasEntry L xs ip → (lwipFindIp xs (L.ntoa ip)).1 = 0) ∧
      (¬ HasEntry L xs ip → (lwipFindIp xs (L.ntoa ip)).1 = -1) := by
  rw [lwipFindIp, if_neg hdom]
  cases hfind : (List.range (xs.nVifs + 1)).findSome? fun i =>
      (xs.ip i).filter fun res => L.ntoa ip = "0.0.0.0" ∨ L.ntoa ip = res with
  | some res =>
      refine ⟨fun _ => rfl, fun hno => absurd ?_ hno⟩
      obtain ⟨i, -, hi⟩ := List.exists_of_findSome?_eq_some hfind
      obtain ⟨hr, hcase⟩ := Option.filter_eq_some_iff.1 hi
      have hmem : some res ∈ xs.vifs := List.mem_iff_getElem?.2 ⟨i, Xenstore.ip_eq_some.1 hr⟩
      unfold HasEntry
      split
      · exact ⟨_, hmem, fun h => (by cases h)⟩
      · rename_i hip
        rcases of_decide_eq_true hcase with hany | heq
        · exact absurd ((L.ntoa_any ip).1 hany) hip
        · rw [heq]
          exact hmem
  | none =>
      refine ⟨fun hhas => ?_, fun _ => rfl⟩
      -- the loop meets the entry
      have hmeet : ∀ r, some r ∈ xs.vifs → ¬ (L.ntoa ip = "0.0.0.0" ∨ L.ntoa ip = r) := by
        intro r hmem hcase
        obtain ⟨i, hi, hr⟩ := mem_vifs_iff.1 hmem
        have hat := List.findSome?_eq_none_iff.1 hfind i (List.mem_range.2 (Nat.lt_succ_of_lt hi))
        rw [hr, Option.filter_some, if_pos (decide_eq_true hcase)] at hat
        cases hat
      unfold HasEntry at hhas
      split at hhas
      · rename_i hip
        obtain ⟨e, he, hne⟩ := hhas
        obtain ⟨r, rfl⟩ := Option.ne_none_iff_exists'.1 hne
        exact absurd (.inl ((L.ntoa_any ip).2 hip)) (hmeet r he)
      · exact absurd (.inr rfl) (hmeet _ hhas)

/-- The search for a vif without an entry ends behind the last vif, if it starts there or in front. -/
theorem lwipFindNextNoip_spec (hdom : xs.domid ≠ -1) (off : Nat) :
    (∃ i : Nat, lwipFindNextNoip xs off = (i : Int) ∧ i ≤ xs.nVifs ∧ NextNoip xs off i) ∨
      (lwipFindNextNoip xs off = -1 ∧ xs.nVifs < off) := by
  rw [lwipFindNextNoip, if_neg hdom]
  cases hfind : (List.range' off (xs.nVifs + 1 - off)).find? fun i => (xs.ip i).isNone with
  | some i =>
      obtain ⟨hnone, hmem, hfirst⟩ := List.find?_range'_eq_some.1 hfind
      have hin := List.mem_range'_1.1 hmem
      refine .inl ⟨i, rfl, by omega, hin.1, Option.isNone_iff_eq_none.1 hnone, ?_⟩
      intro j hj hoff hnone
      have hj' := hfirst j hoff hj
      rw [hnone] at hj'
      cases hj'
  | none =>
      refine .inr ⟨rfl, ?_⟩
      by_contra hle
      have hlast := List.find?_eq_none.1 hfind xs.nVifs (List.mem_range'_1.2 (by omega))
      rw [xs.ip_nVifs] at hlast
      exact hlast rfl

/-- What `lwip_addif` does: nothing, or it adds one interface. -/
theorem lwipAddif_spec {s : Ethers} {mask gw : UInt32} :
    (∃ err, lwipAddif L xs s ip mask gw = .error err ∧
      (s.objs.length < etherMax → xs.domid ≠ -1 → ¬ HasEntry L xs ip ∧ xs.nVifs < s.noipOff)) ∨
    ∃ o off, lwipAddif L xs s ip mask gw = .ok ⟨s.objs ++ [o], off⟩ ∧
      s.objs.length < etherMax ∧ xs.domid ≠ -1 ∧
      ((HasEntry L xs ip ∧ o.vifId = 0 ∧ off = s.noipOff) ∨
        (¬ HasEntry L xs ip ∧ o.vifId ≤ xs.nVifs ∧ NextNoip xs s.noipOff o.vifId ∧ off = o.vifId + 1)) := by
  unfold lwipAddif
  by_cases hmax : etherMax ≤ s.objs.length
  · rw [if_pos hmax]
    exact .inl ⟨_, rfl, fun hlt => absurd hlt (Nat.not_lt.2 hmax)⟩
  · rw [if_neg hmax]
    by_cases hdom : xs.domid = -1
    · have hfind : (lwipFindIp xs (L.ntoa ip)).1 = -1 := by rw [lwipFindIp, if_pos hdom]
      have hnext : lwipFindNextNoip xs s.noipOff = -1 := by rw [lwipFindNextNoip, if_pos hdom]
      simp only [hfind, hnext]
      exact .inl ⟨_, rfl, fun _ h => absurd hdom h⟩
    · by_cases hhas : HasEntry L xs ip
      · simp only [(lwipFindIp_fst hdom).1 hhas]
        exact .inr ⟨_, _, rfl, Nat.not_le.1 hmax, hdom, .inl ⟨hhas, rfl, rfl⟩⟩
      · simp only [(lwipFindIp_fst hdom).2 hhas]
        rcases lwipFindNextNoip_spec hdom s.noipOff with ⟨i, hi, hle, hnext⟩ | ⟨hi, hlt⟩
        · simp only [hi]
          refine .inr ⟨⟨i, _, mask, gw⟩, i + 1, (if_pos (by decide)).trans (if_neg (by omega)),
            Nat.not_le.1 hmax, hdom, .inr ⟨hhas, ?_⟩⟩
          exact ⟨hle, hnext, rfl⟩
        · simp only [hi]
          exact .inl ⟨_, rfl, fun _ _ => ⟨hhas, hlt⟩⟩

end Searches

/-! ## Runs -/

section Runs

variable {L : Lwip} {xs : Xenstore} {s s' : EtherLog} {c : EtherCall}

/-- The offset is behind an interface, once it has moved. -/
structure Tracked (s : EtherLog) : Prop where
  length : s.asked.length = s.ethers.objs.length
  offset : s.ethers.noipOff = 0 ∨ ∃ o ∈ s.ethers.objs, o.vifId + 1 = s.ethers.noipOff

/-- A call changes nothing, or one interface is added for the address of its request. -/
theorem etherNext_spec (hs : (ethers L xs).Step s c s') :
    (s' = s ∧ ∀ ip mask gw, request L s.ethers c = some (ip, mask, gw) → s.ethers.objs.length < etherMax →
        xs.domid ≠ -1 → ¬ HasEntry L xs ip ∧ xs.nVifs < s.ethers.noipOff) ∨
    ∃ ip mask gw o off, request L s.ethers c = some (ip, mask, gw) ∧ s.ethers.objs.length < etherMax ∧
      xs.domid ≠ -1 ∧ s' = ⟨⟨s.ethers.objs ++ [o], off⟩, s.asked ++ [ip]⟩ ∧
      ((HasEntry L xs ip ∧ o.vifId = 0 ∧ off = s.ethers.noipOff) ∨
        (¬ HasEntry L xs ip ∧ o.vifId ≤ xs.nVifs ∧ NextNoip xs s.ethers.noipOff o.vifId ∧
          off = o.vifId + 1)) := by
  obtain rfl : etherNext L xs s c = s' := Except.ok.inj hs.2
  unfold etherNext
  cases hreq : request L s.ethers c with
  | none => exact .inl ⟨rfl, fun _ _ _ h => (by cases h)⟩
  | some r =>
      obtain ⟨ip, mask, gw⟩ := r
      rcases @lwipAddif_spec L xs ip s.ethers mask gw with ⟨err, hadd, hno⟩ | ⟨o, off, hadd, hlt, hdom, hcase⟩
      · simp only [hadd]
        refine .inl ⟨trivial, ?_⟩
        rintro ip' mask' gw' ⟨⟩
        exact hno
      · simp only [hadd]
        exact .inr ⟨_, _, _, o, off, rfl, hlt, hdom, rfl, hcase⟩

theorem Tracked.step (h : Tracked s) (hs : (ethers L xs).Step s c s') : Tracked s' := by
  rcases etherNext_spec hs with ⟨rfl, -⟩ | ⟨ip, mask, gw, o, off, -, -, -, rfl, hcase⟩
  · exact h
  · refine ⟨by simp [h.length], ?_⟩
    rcases hcase with ⟨-, -, rfl⟩ | ⟨-, -, -, rfl⟩
    · rcases h.offset with h0 | ⟨p, hp, heq⟩
      · exact .inl h0
      · exact .inr ⟨p, List.mem_append_left _ hp, heq⟩
    · exact .inr ⟨o, List.mem_append_right _ (List.mem_singleton_self o), rfl⟩

theorem zip_snoc {α β : Type} {l : List α} {r : List β} (h : l.length = r.length) (a : α) (b : β) :
    (l ++ [a]).zip (r ++ [b]) = l.zip r ++ [(a, b)] := by
  rw [List.zip_append h]
  rfl

/-- The interfaces so far are bound as well as all of them are. -/
theorem Bound.back (h : Tracked s) (hs : (ethers L xs).Step s c s') (hb : Bound L xs s') : Bound L xs s := by
  rcases etherNext_spec hs with ⟨rfl, -⟩ | ⟨ip, mask, gw, o, off, -, -, -, rfl, -⟩
  · exact hb
  · refine ⟨fun p hp => hb.exists_vif p (List.mem_append_left _ hp), ?_, ?_⟩
    · intro b hmem
      apply hb.entry b
      rw [zip_snoc h.length]
      exact List.mem_append_left _ hmem
    · have halone := hb.alone
      rw [List.map_append] at halone
      exact (List.nodup_append.1 halone).1

/-- The offset stays inside as long as the interfaces are bound to vifs that exist. -/
theorem Bound.offset_le (hb : Bound L xs s) (h : Tracked s) : s.ethers.noipOff ≤ xs.nVifs := by
  rcases h.offset with h0 | ⟨o, ho, heq⟩
  · omega
  · have := hb.exists_vif o ho
    omega

/-- One more interface. -/
theorem bound_snoc (h : Tracked s) (hb : Bound L xs s) {ip : UInt32} {o : Ether} {off : Nat} :
    Bound L xs ⟨⟨s.ethers.objs ++ [o], off⟩, s.asked ++ [ip]⟩ ↔
      o.vifId < xs.nVifs ∧
        (ip ≠ 0 → some (L.ntoa ip) ∈ xs.vifs → xs.ip o.vifId = some (L.ntoa ip)) ∧
        ∀ p ∈ s.ethers.objs, p.vifId ≠ o.vifId := by
  constructor
  · intro hb'
    refine ⟨hb'.exists_vif o (List.mem_append_right _ (List.mem_singleton_self o)), ?_, ?_⟩
    · have hentry := hb'.entry
      rw [zip_snoc h.length] at hentry
      exact hentry (ip, o) (List.mem_append_right _ (List.mem_singleton_self _))
    · intro p hp
      have halone := hb'.alone
      rw [List.map_append, List.nodup_append] at halone
      exact halone.2.2 _ (List.mem_map_of_mem hp) _ (List.mem_singleton_self _)
  · rintro ⟨hex, hentry, halone⟩
    refine ⟨?_, ?_, ?_⟩
    · intro p hp
      rcases List.mem_append.1 hp with hp | hp
      · exact hb.exists_vif p hp
      · rw [List.mem_singleton.1 hp]
        exact hex
    · intro b hmem
      rw [zip_snoc h.length] at hmem
      rcases List.mem_append.1 hmem with hmem | hmem
      · exact hb.entry b hmem
      · rw [List.mem_singleton.1 hmem]
        exact hentry
    · rw [List.map_append, List.nodup_append]
      refine ⟨hb.alone, by simp, ?_⟩
      intro a ha b hmem
      obtain ⟨p, hp, rfl⟩ := List.mem_map.1 ha
      rw [List.mem_singleton.1 hmem]
      exact halone p hp

/-- Exactly the good calls keep the interfaces bound. -/
theorem bound_step_iff (h : Tracked s) (hb : Bound L xs s) (hs : (ethers L xs).Step s c s') :
    Bound L xs s' ↔ Good L xs s c := by
  unfold Good
  rcases etherNext_spec hs with ⟨rfl, hno⟩ | ⟨ip, mask, gw, o, off, hreq, hlt, hdom, rfl, hcase⟩
  · refine iff_of_true hb ?_
    split
    · trivial
    · rename_i r hreq
      intro hlt hdom
      -- the offset has not passed the last vif, so there was an interface to add
      exact absurd (hno _ _ _ hreq hlt hdom).2 (Nat.not_lt.2 (hb.offset_le h))
  · simp only [hreq]
    rw [bound_snoc h hb]
    rcases hcase with ⟨hhas, hzero, -⟩ | ⟨hno, hle, hnext, -⟩
    · rw [hzero]
      constructor
      · rintro ⟨-, hentry, halone⟩ - -
        refine ⟨fun _ => ⟨fun hip => hentry hip ?_, halone⟩, fun hno => absurd hhas hno⟩
        rw [HasEntry, if_neg hip] at hhas
        exact hhas
      · intro hgood
        obtain ⟨hentry, halone⟩ := (hgood hlt hdom).1 hhas
        refine ⟨?_, fun hip _ => hentry hip, halone⟩
        unfold HasEntry at hhas
        split at hhas
        · obtain ⟨e, he, -⟩ := hhas
          exact List.length_pos_of_mem he
        · exact List.length_pos_of_mem hhas
    · constructor
      · rintro ⟨hex, -, halone⟩ - -
        exact ⟨fun hhas => absurd hhas hno, fun _ => ⟨o.vifId, hex, hnext, halone⟩⟩
      · intro hgood
        obtain ⟨i, hi, hnext', halone⟩ := (hgood hlt hdom).2 hno
        have heq : o.vifId = i := by
          rcases Nat.lt_trichotomy o.vifId i with hlt' | heq | hlt'
          · exact absurd hnext.2.1 (hnext'.2.2 _ hlt' hnext.1)
          · exact heq
          · exact absurd hnext'.2.1 (hnext.2.2 _ hlt' hnext'.1)
        rw [heq]
        refine ⟨hi, fun hip hmem => absurd ?_ hno, halone⟩
        rw [HasEntry, if_neg hip]
        exact hmem

/-- After any calls, the interfaces are bound as they should be if and only if every call was good. As they
should be is: each to a vif that exists, to one that has its address if there is one, and to one that no
other interface has. Once a call has gone wrong, no later one puts it right. -/
theorem interfaces_bound_iff {cs : List EtherCall} (hrun : (ethers L xs).Run .init cs s) :
    Bound L xs s ↔ ((ethers L xs).restrict (Good L xs)).Run .init cs s := by
  refine hrun.iff_restrict (I := Tracked) (fun _ _ _ h hs => h.step hs) (fun _ _ _ h hs hb => hb.back h hs)
    (fun _ _ _ h hb hs => bound_step_iff h hb hs) ⟨rfl, .inl rfl⟩ ?_
  exact ⟨fun o ho => absurd ho List.not_mem_nil, fun b hmem => absurd hmem List.not_mem_nil, List.nodup_nil⟩

end Runs

/-! ## A host with two vifs -/

instance (L : Lwip) (xs : Xenstore) (ip : UInt32) : Decidable (HasEntry L xs ip) :=
  inferInstanceAs (Decidable (if ip = 0 then ∃ e ∈ xs.vifs, e ≠ none else some (L.ntoa ip) ∈ xs.vifs))

instance (xs : Xenstore) (off i : Nat) : Decidable (NextNoip xs off i) :=
  inferInstanceAs (Decidable (off ≤ i ∧ xs.ip i = none ∧ ∀ j, j < i → off ≤ j → xs.ip j ≠ none))

instance (L : Lwip) (xs : Xenstore) (s : Ethers) (ip : UInt32) : Decidable (GoodFor L xs s ip) :=
  inferInstanceAs (Decidable (_ → _ → _ ∧ _))

instance (L : Lwip) (xs : Xenstore) (s : EtherLog) (c : EtherCall) : Decidable (Good L xs s c) :=
  match hr : request L s.ethers c with
  | none => isTrue (by rw [Good, hr]; trivial)
  | some r => decidable_of_iff (GoodFor L xs s.ethers r.1) (by rw [Good, hr])

/-- What lwIP does with three addresses. -/
def tinyLwip : Lwip where
  ntoa ip :=
    if ip = 0 then "0.0.0.0" else if ip = 0x0a000001 then "10.0.0.1"
    else if ip = 0x0a000002 then "10.0.0.2" else "255.255.255.255"
  aton r := if r = "10.0.0.1" then some 0x0a000001 else if r = "10.0.0.2" then some 0x0a000002 else none
  islinklocal _ := false
  ismulticast _ := false
  isbroadcast _ _ := false
  ntoa_any ip := by
    by_cases hip : ip = 0
    · simp [hip]
    · simp only [hip, if_false, iff_false]
      split
      · decide
      · split <;> decide

/-- The first vif has an entry. A socket is bound to its address, and an interface added for the other. -/
theorem interfaces_bound_iff_two : ∃ s,
    (ethers tinyLwip ⟨3, [some "10.0.0.1", none]⟩).Run .init
      [.bind 0x0a000001, .ether 0x0a000002 0xffffff00 0] s ∧
    s.ethers.objs.map (·.vifId) = [0, 1] ∧ Bound tinyLwip ⟨3, [some "10.0.0.1", none]⟩ s := by
  have hrun := Machine.Run.cons (m := ethers tinyLwip ⟨3, [some "10.0.0.1", none]⟩) (s := .init)
    (e := .bind 0x0a000001) ⟨trivial, rfl⟩
    (.cons (e := .ether 0x0a000002 0xffffff00 0) ⟨trivial, rfl⟩ (.nil _))
  refine ⟨_, hrun, by decide, (interfaces_bound_iff hrun).2 ?_⟩
  exact .cons (Machine.restrict_step.2 ⟨⟨trivial, rfl⟩, by decide⟩)
    (.cons (Machine.restrict_step.2 ⟨⟨trivial, rfl⟩, by decide⟩) (.nil _))

/-- Both vifs have an entry. The interface for the second one is bound to the first, and so is the one for
the first; a third address gets a vif that does not exist. -/
theorem interfaces_unbound : ∃ s,
    (ethers tinyLwip ⟨3, [some "10.0.0.1", some "10.0.0.2"]⟩).Run .init
      [.bind 0x0a000002, .bind 0x0a000001, .bind 0x0a000003] s ∧
    s.ethers.objs.map (·.vifId) = [0, 0, 2] ∧
    ¬ Bound tinyLwip ⟨3, [some "10.0.0.1", some "10.0.0.2"]⟩ s := by
  refine ⟨_, .cons ⟨trivial, rfl⟩ (.cons ⟨trivial, rfl⟩ (.cons ⟨trivial, rfl⟩ (.nil _))), ?_, ?_⟩
  · decide
  · intro hb
    exact absurd hb.alone (by decide)

end Minipython.Mods
