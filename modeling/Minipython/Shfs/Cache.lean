/-
# Minipython.Shfs.Cache — the chunk cache (shfs_cache.c)

Entries are memory of the buffer pool or of the heap. The list of available entries, the collision lists
and the chains of callers' tokens are intrusive, each with one pair of link fields, and all of them are
kept at pointer level.

What the cache does not decide comes in from outside: what the heap and the token pool answer
(`AddEnv`, `AreadEnv`), whether a device request can be started, when it completes and how. A heap block
or token that is still in use is not an answer an allocator can give, so such an answer counts as none.

`shfs_aread_chunk` yields the CPU where a device has no free slot, so a call of `shfs_cache_aread` can
stop inside `shfs_cache_add`, for its own chunk or while it reads ahead. Its entry has its new address
then and is on the list of available entries, but it has no token yet and is on no collision list. Such
calls are kept in `Cache.adds` with what their stack frames hold (`Pending`); other callers and
completions come in, and `resume` is the end of the wait. A call may wait for several slots in a row,
which is one wait here.

A flush polls the devices while it waits for an entry, and does not yield, so a flush is a sequence of
steps: `flushNext` is one turn of its loop and `flushed` the end of a wait. All other operations run to
their end without anything in between.

`refcount` is a `uint32_t` and wraps. `nb_entries` and `nb_ref_entries` are 64-bit counts of entries in
memory, which do not.

`Cache.refs`, `Cache.issued`, `Cache.log` and the fields `serial` and `gen` are not in the C code. They
record who holds which entry, what happened to each caller's token and how often an entry was handed out.
-/
import Mathlib.Data.Finset.Card
import Minipython.Lib.DList
import Minipython.Lib.Machine
import Minipython.Shfs.Defs

namespace Minipython.Shfs

open Minipython.Lib

/-! ## Entries and tokens -/

/-- A piece of memory. A pool object carries an entry in its private area and a chunk buffer as its
data, and both go by its name; on the heap they are two blocks. -/
inductive Mem where
  | pobj (n : Nat)
  | heap (n : Nat)
  deriving DecidableEq, Repr

/-- The callback of a token and its cookie: `_cce_aiocb` of an entry, or a caller's. -/
inductive AioCb where
  | cce (cce : Mem)
  | user (cookie : Nat)
  deriving DecidableEq, Repr

/-- `SHFS_AIO_TOKEN`. `infly` is not counted by stripe here: it is 1 until the whole request is done.
`chunk` is the chunk that the device requests under a private token read. -/
structure AioToken where
  infly : Nat
  ret : Int
  cb : Option AioCb
  serial : Nat
  chunk : Nat

/-- `struct shfs_cache_entry`. -/
structure Cce where
  pobj : Option Nat
  addr : Nat
  refcount : UInt32
  buffer : Mem
  invalid : Bool
  t : Option Nat
  aioChain : Ends Nat
  gen : Nat

/-- A reference that a caller holds, with the token it got along with it. -/
structure Ref where
  cce : Mem
  tok : Option Nat
  serial : Nat
  blank : Bool
  deriving DecidableEq, Repr

/-- The stack frame of a `shfs_cache_aread` of the chunk `addr` that waits for a slot, while the request
with the token `tok` is set up for the entry `cce`. That is the request of the chunk itself, or, with
`ahead = some (c, i)`, the one of the iteration `i` of reading ahead; the call has then counted its
reference on the entry `c` of its chunk. -/
structure Pending where
  addr : Nat
  cb : Option Nat
  cce : Mem
  tok : Nat
  ahead : Option (Mem × Nat)
  deriving DecidableEq, Repr

namespace Pending

/-- The chunk whose request is set up. -/
def target (p : Pending) : Nat :=
  match p.ahead with
  | none => p.addr
  | some (_, i) => wrap64 (p.addr + i)

/-- The entry that the call has counted a reference on. -/
def holds (p : Pending) : Option Mem := p.ahead.map Prod.fst

end Pending

/-- What happens to the token with a serial number. -/
inductive TokEvent where
  | issued (serial : Nat)
  | notified (serial : Nat) (ret : Int) (cb : Option AioCb)
  | aborted (serial : Nat)
  deriving DecidableEq, Repr

/-- Where `shfs_cache_flush_alist` is. -/
inductive FlushPc where
  | idle
  | loop
  | wait (cce : Mem)
  deriving DecidableEq, Repr

/-- The build options and the volume: `SHFS_CACHE_POOL_NB_BUFFERS`, `shfs_htcollision_order`,
`SHFS_CACHE_READAHEAD` and `volsize`. -/
structure CacheConf where
  poolNbBuffers : Nat
  htcollisionOrder : Nat
  readahead : Nat
  volsize : Nat
  volsize_lt : volsize < u64Size

/-- `struct shfs_cache` with the memory and the tokens behind it. `entries` are the entries that
`shfs_cache_pick_cce` handed out and `shfs_cache_put_cce` did not take back. -/
structure Cache where
  mounted : Bool
  pool : List Nat
  entries : Finset Mem
  cce : Mem → Cce
  alinks : Links Mem
  alist : Ends Mem
  clinks : Links Mem
  htable : Nat → Ends Mem
  nbEntries : Nat
  nbRefEntries : Nat
  tokens : Finset Nat
  tok : Nat → AioToken
  tlinks : Links Nat
  pc : FlushPc
  adds : List Pending
  refs : List Ref
  issued : Nat
  log : List TokEvent

/-- `shfs_alloc_cache`: fresh memory holds anything. -/
def shfsAllocCache (conf : CacheConf) (cce : Mem → Cce) (alinks clinks : Links Mem)
    (tok : Nat → AioToken) (tlinks : Links Nat) : Cache where
  mounted := true
  pool := List.range conf.poolNbBuffers
  entries := ∅
  cce := cce
  alinks := alinks
  alist := DList.emptyEnds
  clinks := clinks
  htable _ := DList.emptyEnds
  nbEntries := 0
  nbRefEntries := 0
  tokens := ∅
  tok := tok
  tlinks := tlinks
  pc := .idle
  adds := []
  refs := []
  issued := 0
  log := []

namespace Cache

/-- A call waits while the request of the entry is set up. -/
def SetUp (s : Cache) (c : Mem) : Prop := ∃ p ∈ s.adds, p.cce = c

instance (s : Cache) (c : Mem) : Decidable (s.SetUp c) := inferInstanceAs (Decidable (∃ p ∈ s.adds, _))

/-- Write to an entry. -/
def setCce (s : Cache) (c : Mem) (e : Cce) : Cache := { s with cce := Function.update s.cce c e }

/-- Write to a token. -/
def setTok (s : Cache) (t : Nat) (x : AioToken) : Cache := { s with tok := Function.update s.tok t x }

/-- `shfs_aio_is_done`. -/
def aioIsDone (s : Cache) : Option Nat → Bool
  | none => true
  | some t => (s.tok t).infly == 0

/-- `shfs_aio_put_token`. -/
def putToken (s : Cache) (t : Nat) : Cache := { s with tokens := s.tokens.erase t }

/-- `shfs_aio_pick_token` where the pool answers `t`. -/
def pickToken (s : Cache) (t : Option Nat) : Option Nat := t.filter (· ∉ s.tokens)

/-- `mempool_pick` or `_xmalloc` of an entry, with `_cce_pobj_init` or the same by hand. -/
def initCce (s : Cache) (c : Mem) (pobj : Option Nat) (buffer : Mem) : Cache :=
  { s.setCce c { s.cce c with
      pobj := pobj, refcount := 0, buffer := buffer, invalid := true, t := none
      aioChain := DList.emptyEnds, gen := (s.cce c).gen + 1 } with
    entries := insert c s.entries
    nbEntries := s.nbEntries + 1 }

/-- The heap can answer with the blocks `n` for an entry and `m` for a buffer. -/
def HeapFree (s : Cache) (n m : Nat) : Prop :=
  Mem.heap n ∉ s.entries ∧ ∀ c ∈ s.entries, (s.cce c).buffer ≠ .heap m

instance (s : Cache) (n m : Nat) : Decidable (s.HeapFree n m) :=
  inferInstanceAs (Decidable (_ ∧ _))

/-- `shfs_cache_pick_cce`. -/
def pickCce (s : Cache) (heap : Option (Nat × Nat)) : Option (Mem × Cache) :=
  match s.pool with
  | n :: rest => some (.pobj n, { s.initCce (.pobj n) (some n) (.pobj n) with pool := rest })
  | [] =>
      match heap with
      | none => none
      | some (n, m) =>
          if s.HeapFree n m then some (.heap n, s.initCce (.heap n) none (.heap m)) else none

/-- `shfs_cache_put_cce`. -/
def putCce (s : Cache) (c : Mem) : Cache :=
  { s with
    pool := match (s.cce c).pobj with
      | none => s.pool
      | some n => s.pool ++ [n]
    entries := s.entries.erase c
    nbEntries := s.nbEntries - 1 }

/-- `dlist_unlink` from the list of available entries. -/
def alistUnlink (s : Cache) (c : Mem) : Cache :=
  { s with
    alinks := (DList.detach s.alinks s.alist c).1
    alist := (DList.detach s.alinks s.alist c).2 }

/-- `dlist_append` to the list of available entries. -/
def alistAppend (s : Cache) (c : Mem) : Except Fault Cache :=
  match DList.append s.alinks s.alist c with
  | none => .error .null
  | some (L, E) => .ok { s with alinks := L, alist := E }

/-- The first entry of the list of available entries whose I/O has completed. -/
def findDone (s : Cache) : Option Mem :=
  (DList.walk s.alinks.next s.entries.card s.alist.first).find? fun c => (s.cce c).t.isNone

end Cache

/-- `shfs_cache_htindex`: the low 32 bits of the address under `htmask`. -/
def shfsCacheHtindex (conf : CacheConf) (addr : Nat) : Nat :=
  (addr % u32Size) &&& (2 ^ conf.htcollisionOrder - 1)

namespace Cache

/-- `dlist_unlink` from the collision list of the entry's address. -/
def clistUnlink (conf : CacheConf) (s : Cache) (c : Mem) : Cache :=
  let i := shfsCacheHtindex conf (s.cce c).addr
  { s with
    clinks := (DList.detach s.clinks (s.htable i) c).1
    htable := Function.update s.htable i (DList.detach s.clinks (s.htable i) c).2 }

/-- `dlist_append` to the collision list of an address. -/
def clistAppend (conf : CacheConf) (s : Cache) (c : Mem) (addr : Nat) : Except Fault Cache :=
  let i := shfsCacheHtindex conf addr
  match DList.append s.clinks (s.htable i) c with
  | none => .error .null
  | some (L, E) => .ok { s with clinks := L, htable := Function.update s.htable i E }

end Cache

open Cache

/-- `shfs_cache_find`. -/
def shfsCacheFind (conf : CacheConf) (s : Cache) (addr : Nat) : Option Mem :=
  (DList.walk s.clinks.next s.entries.card (s.htable (shfsCacheHtindex conf addr)).first).find?
    fun c => (s.cce c).addr == addr

/-- `shfs_cache_unlink`. -/
def shfsCacheUnlink (conf : CacheConf) (s : Cache) (c : Mem) : Except Fault Cache :=
  if (s.cce c).refcount ≠ 0 then .error .assert
  else .ok ((s.clistUnlink conf c).alistUnlink c)

/-! ## Requests -/

/-- What setting up a device request comes to: an error in `errno`, a token with all of the request
handed over, or a token and a wait for a slot. -/
inductive IoStart where
  | error (e : Errno)
  | started (t : Nat)
  | wait (t : Nat)
  deriving DecidableEq, Repr

/-- The answers to one `shfs_cache_add`: the two blocks of the heap, and what comes of the request. -/
structure AddEnv where
  heap : Option (Nat × Nat)
  io : IoStart

/-- How far a `shfs_cache_add` has come: it failed, it has added an entry, or it waits. -/
inductive AddRet where
  | failed (e : Errno)
  | added (cce : Mem)
  | waits (cce : Mem) (t : Nat)
  deriving DecidableEq, Repr

/-- `shfs_aread_chunk` for the buffer of an entry, up to its end or its wait: the token is picked before
any part of the request is handed over. -/
def areadChunk (s : Cache) (c : Mem) (addr : Nat) : IoStart → Except Errno (Nat × Cache)
  | .error e => .error e
  | .started t | .wait t =>
      if t ∈ s.tokens then .error .eagain
      else .ok (t, { s.setTok t
          { infly := 1, ret := 0, cb := some (.cce c), serial := 0, chunk := addr } with
        tokens := insert t s.tokens })

/-- The first half of `shfs_cache_add`: a new buffer at the tail of the available entries, or one of
them without its old address, moved there. -/
def shfsCacheAddBuffer (conf : CacheConf) (s : Cache) (heap : Option (Nat × Nat)) :
    Except Fault (Option Mem × Cache) :=
  match s.pickCce heap with
  | some (c, s) => do
      let s ← s.alistAppend c
      return (some c, s)
  | none =>
      match s.findDone with
      | none => return (none, s)
      | some c => do
          let s := s.clistUnlink conf c
          let s ← (s.alistUnlink c).alistAppend c
          return (some c, s)

/-- `shfs_aread_chunk` has returned `NULL`: the buffer is given back. -/
def shfsCacheAddFail (s : Cache) (c : Mem) : Cache :=
  ((s.setCce c { s.cce c with t := none }).alistUnlink c).putCce c

/-- The end of `shfs_cache_add` once `shfs_aread_chunk` has returned its token, or has put it back and
failed: the address is listed. -/
def shfsCacheAddEnd (conf : CacheConf) (s : Cache) (c : Mem) (t addr : Nat) :
    Option Errno → Except Fault (AddRet × Cache)
  | some e => return (.failed e, shfsCacheAddFail (s.putToken t) c)
  | none => do
      let s := s.setCce c { s.cce c with t := some t }
      let s ← s.clistAppend conf c addr
      return (.added c, s)

/-- The second half of `shfs_cache_add`: start the device request of the buffer, and go on to the end
unless it waits. -/
def shfsCacheAddRequest (conf : CacheConf) (s : Cache) (c : Mem) (addr : Nat) (io : IoStart) :
    Except Fault (AddRet × Cache) :=
  let s := s.setCce c { s.cce c with addr := addr, gen := (s.cce c).gen + 1 }
  match areadChunk s c addr io, io with
  | .error e, _ => return (.failed e, shfsCacheAddFail s c)
  | .ok (t, s), .wait _ => return (.waits c t, s)
  | .ok (t, s), _ => shfsCacheAddEnd conf s c t addr none

/-- `shfs_cache_add`, up to its end or its wait. -/
def shfsCacheAdd (conf : CacheConf) (s : Cache) (addr : Nat) (env : AddEnv) :
    Except Fault (AddRet × Cache) := do
  match ← shfsCacheAddBuffer conf s env.heap with
  | (none, s) => return (.failed .eagain, s)
  | (some c, s) => shfsCacheAddRequest conf s c addr env.io

/-- `shfs_cache_readahead` from its iteration `i` on, with `n` of them left. It ends, or waits with an
entry and a token in an iteration. -/
def shfsCacheReadahead (conf : CacheConf) (addr : Nat) (env : Nat → AddEnv) :
    Nat → Nat → Cache → Except Fault (Option (Nat × Mem × Nat) × Cache)
  | 0, _, s => return (none, s)
  | n + 1, i, s =>
      let addri := wrap64 (addr + i)
      if conf.volsize ≤ addri then return (none, s)
      else
        match shfsCacheFind conf s addri with
        | some _ => shfsCacheReadahead conf addr env n (i + 1) s
        | none => do
            match ← shfsCacheAdd conf s addri (env i) with
            | (.failed _, s) => return (none, s)
            | (.added _, s) => shfsCacheReadahead conf addr env n (i + 1) s
            | (.waits d t, s) => return (some (i, d, t), s)

/-! ## Reading -/

/-- The answers to one `shfs_cache_aread`, from one wait to the next. -/
structure AreadEnv where
  demand : AddEnv
  ahead : Nat → AddEnv
  token : Option Nat

/-- What `shfs_cache_aread` returns, with `*cce_out` and `*t_out`: a negative value, 0 or 1. -/
inductive AreadRet where
  | err (e : Errno)
  | ready (cce : Mem)
  | pending (cce : Mem) (t : Nat)
  deriving DecidableEq, Repr

/-- A call of `shfs_cache_aread` returns, or waits. -/
inductive CallEnd where
  | ret (x : AreadRet)
  | waits (p : Pending)
  deriving DecidableEq, Repr

namespace Cache

/-- Count one more reference; the first one takes the entry off the available entries. -/
def takeRef (s : Cache) (c : Mem) : Cache :=
  let s := if (s.cce c).refcount = 0 then
      { s.alistUnlink c with nbRefEntries := s.nbRefEntries + 1 } else s
  s.setCce c { s.cce c with refcount := (s.cce c).refcount + 1 }

/-- Count one reference less; `gone` decides on an entry without any. -/
def dropRef (s : Cache) (c : Mem) (gone : Cache → Except Fault Cache) : Except Fault Cache :=
  let s := s.setCce c { s.cce c with refcount := (s.cce c).refcount - 1 }
  if (s.cce c).refcount = 0 then gone { s with nbRefEntries := s.nbRefEntries - 1 } else .ok s

/-- Append a token to the chain of an entry. -/
def chainAppend (s : Cache) (c : Mem) (t : Nat) : Cache :=
  match (s.cce c).aioChain.last with
  | some z =>
      { s.setCce c { s.cce c with aioChain := { (s.cce c).aioChain with last := some t } } with
        tlinks := DList.setNext (DList.setPrev (DList.setNext s.tlinks z (some t)) t (some z)) t none }
  | none =>
      { s.setCce c { s.cce c with aioChain := ⟨some t, some t⟩ } with
        tlinks := DList.setNext (DList.setPrev s.tlinks t none) t none }

/-- Unlink a token from the chain of an entry. -/
def chainUnlink (s : Cache) (c : Mem) (t : Nat) : Cache :=
  { s.setCce c { s.cce c with aioChain := (DList.unlink s.tlinks (s.cce c).aioChain t).2 } with
    tlinks := (DList.unlink s.tlinks (s.cce c).aioChain t).1 }

end Cache

/-- The end of `shfs_cache_aread` for an entry that is referenced: a token for the caller if the I/O is
not done. -/
def shfsCacheAreadChain (s : Cache) (c : Mem) (cb : Option Nat) (token : Option Nat) :
    Except Fault (AreadRet × Cache) :=
  if s.aioIsDone (s.cce c).t then return (.ready c, s)
  else
    match s.pickToken token with
    | none => do
        let s ← s.dropRef c fun s => s.alistAppend c
        return (.err .eagain, s)
    | some t =>
        let s := { s.setTok t
            { infly := 1, ret := 0, cb := cb.map .user, serial := s.issued, chunk := 0 } with
          tokens := insert t s.tokens }
        return (.pending c t, s.chainAppend c t)

/-- `shfs_cache_aread` with its reference on the entry `c`, from the iteration `i` of reading ahead on. -/
def shfsCacheAreadAhead (conf : CacheConf) (s : Cache) (addr : Nat) (cb : Option Nat) (c : Mem)
    (n i : Nat) (env : AreadEnv) : Except Fault (CallEnd × Cache) := do
  match ← shfsCacheReadahead conf addr env.ahead n i s with
  | (some (j, d, t), s) => return (.waits ⟨addr, cb, d, t, some (c, j)⟩, s)
  | (none, s) => do
      let (x, s) ← shfsCacheAreadChain s c cb env.token
      return (.ret x, s)

/-- `shfs_cache_aread` with the entry of its chunk: take a reference and read ahead. -/
def shfsCacheAreadRef (conf : CacheConf) (s : Cache) (addr : Nat) (cb : Option Nat) (c : Mem)
    (env : AreadEnv) : Except Fault (CallEnd × Cache) :=
  shfsCacheAreadAhead conf (s.takeRef c) addr cb c conf.readahead 1 env

/-- The entry of a chunk, from the cache or with a new request. -/
def shfsCacheGet (conf : CacheConf) (s : Cache) (addr : Nat) (env : AddEnv) :
    Except Fault (AddRet × Cache) :=
  match shfsCacheFind conf s addr with
  | some c => return (.added c, s)
  | none => shfsCacheAdd conf s addr env

/-- `shfs_cache_aread`, up to its end or its first wait. -/
def shfsCacheAread (conf : CacheConf) (s : Cache) (addr : Nat) (cb : Option Nat) (env : AreadEnv) :
    Except Fault (CallEnd × Cache) :=
  if s.mounted = false then return (.ret (.err .enodev), s)
  else if addr = 0 ∨ conf.volsize < addr then return (.ret (.err .einval), s)
  else do
    match ← shfsCacheGet conf s addr env.demand with
    | (.failed e, s) => return (.ret (.err e), s)
    | (.added c, s) => shfsCacheAreadRef conf s addr cb c env
    | (.waits c t, s) => return (.waits ⟨addr, cb, c, t, none⟩, s)

/-- The wait of `p` in `shfs_aread_chunk` ends, with all of the request handed over or with an error. A
failed request ends reading ahead. -/
def shfsCacheResume (conf : CacheConf) (s : Cache) (p : Pending) (err : Option Errno) (env : AreadEnv) :
    Except Fault (CallEnd × Cache) := do
  match ← shfsCacheAddEnd conf s p.cce p.tok p.target err, p.ahead with
  | (.added c, s), none => shfsCacheAreadRef conf s p.addr p.cb c env
  | (.failed e, s), none => return (.ret (.err e), s)
  | (.added _, s), some (c, i) =>
      shfsCacheAreadAhead conf s p.addr p.cb c (conf.readahead - i) (i + 1) env
  | (_, s), some (c, _) => shfsCacheAreadAhead conf s p.addr p.cb c 0 0 env
  -- shfs_cache_add does not wait again
  | (.waits d t, s), none => return (.waits ⟨p.addr, p.cb, d, t, none⟩, s)

/-- The buffer of `shfs_cache_eblank`: a new one, or that of an available entry. -/
def shfsCacheEblankBuffer (conf : CacheConf) (s : Cache) (heap : Option (Nat × Nat)) :
    Except Fault (Option Mem × Cache) :=
  match s.pickCce heap with
  | some (c, s) => return (some c, s)
  | none =>
      match s.findDone with
      | none => return (none, s)
      | some c => do
          let s ← shfsCacheUnlink conf s c
          return (some c, s)

/-- `shfs_cache_eblank`. -/
def shfsCacheEblank (conf : CacheConf) (s : Cache) (heap : Option (Nat × Nat)) :
    Except Fault (Except Errno Mem × Cache) :=
  if s.mounted = false then return (.error .enodev, s)
  else do
    match ← shfsCacheEblankBuffer conf s heap with
    | (none, s) => return (.error .eagain, s)
    | (some c, s) =>
        return (.ok c, { s.setCce c { s.cce c with
            refcount := 1, t := none, addr := 0, invalid := true, gen := (s.cce c).gen + 1 } with
          nbRefEntries := s.nbRefEntries + 1 })

/-! ## Releasing -/

/-- Destroy an entry without references: one with an address is unlinked first. -/
def shfsCacheDestroy (conf : CacheConf) (s : Cache) (c : Mem) : Except Fault Cache :=
  if (s.cce c).addr ≠ 0 then do
    let s ← shfsCacheUnlink conf s c
    return s.putCce c
  else return s.putCce c

/-- `shfs_cache_release`. -/
def shfsCacheRelease (conf : CacheConf) (s : Cache) (c : Mem) : Except Fault Cache :=
  if (s.cce c).refcount = 0 then .error .bugOn
  else if s.aioIsDone (s.cce c).t = false then .error .bugOn
  else s.dropRef c fun s =>
    if (s.cce c).invalid = false then s.alistAppend c else shfsCacheDestroy conf s c

/-- Take a caller's token off the chain of an entry if its I/O is not done, and put it back. -/
def abortToken (s : Cache) (c : Mem) : Option Nat → Cache
  | none => s
  | some t => (if (s.tok t).infly ≠ 0 then s.chainUnlink c t else s).putToken t

/-- `shfs_cache_release_ioabort`. -/
def shfsCacheReleaseIoabort (conf : CacheConf) (s : Cache) (c : Mem) (t : Option Nat) :
    Except Fault Cache :=
  if (s.cce c).refcount = 0 then .error .bugOn
  else if s.aioIsDone (s.cce c).t = false ∧ t = none then .error .bugOn
  else if s.aioIsDone (s.cce c).t = true ∧ s.aioIsDone t = false then .error .bugOn
  else (abortToken s c t).dropRef c fun s =>
    if s.aioIsDone (s.cce c).t = true ∧ (s.cce c).invalid = true then shfsCacheDestroy conf s c
    else s.alistAppend c

/-! ## Completion -/

/-- One turn of the notification loop of `_cce_aiocb`. -/
def notifyToken (ret : Int) (s : Cache) (t : Nat) : Cache :=
  { s.setTok t { s.tok t with ret := ret, infly := 0 } with
    log := s.log ++ [.notified (s.tok t).serial ret (s.tok t).cb] }

/-- `_cce_aiocb`. -/
def cceAiocb (conf : CacheConf) (s : Cache) (t : Nat) (c : Mem) : Except Fault Cache :=
  if (s.cce c).refcount = 0 ∧ (s.cce c).aioChain.first ≠ none then .error .bugOn
  else if (s.cce c).t ≠ some t then .error .bugOn
  -- shfs_aio_finalize
  else if (s.tok t).infly ≠ 0 then .error .bugOn
  else
    let ret := (s.tok t).ret
    let s := s.putToken t
    let s := s.setCce c { s.cce c with t := none, invalid := decide (ret < 0) }
    if (s.cce c).refcount = 0 ∧ (s.cce c).invalid = true then do
      let s ← shfsCacheUnlink conf s c
      return s.putCce c
    else
      let chain := DList.walk s.tlinks.next s.tokens.card (s.cce c).aioChain.first
      let s := s.setCce c { s.cce c with aioChain := DList.emptyEnds }
      return chain.foldl (notifyToken ret) s

/-! ## Flushing -/

/-- One turn of the loop of `shfs_cache_flush_alist`, up to the wait for a completion. -/
def flushNext (conf : CacheConf) (s : Cache) : Except Fault Cache :=
  match s.alist.first with
  | none => .ok { s with pc := .idle }
  | some c =>
      if (s.cce c).t ≠ none then
        .ok { s.setCce c { s.cce c with refcount := 1 } with pc := .wait c }
      else do
        let s ← shfsCacheUnlink conf s c
        return s.putCce c

/-- The rest of that turn once the I/O of the entry has completed. -/
def flushDone (conf : CacheConf) (s : Cache) (c : Mem) : Except Fault Cache := do
  let s := s.setCce c { s.cce c with refcount := 0 }
  let s ← shfsCacheUnlink conf s c
  return { s.putCce c with pc := .loop }

/-! ## The cache and its callers -/

inductive CacheEvent where
  /-- a volume is mounted or unmounted -/
  | mount (mounted : Bool)
  | aread (addr : Nat) (cb : Option Nat) (env : AreadEnv)
  /-- the wait of a call ends -/
  | resume (p : Pending) (err : Option Errno) (env : AreadEnv)
  | eblank (heap : Option (Nat × Nat))
  | release (r : Ref)
  | ioabort (r : Ref)
  /-- a caller calls `shfs_aio_finalize` on its token -/
  | finalize (r : Ref)
  /-- the device request of a private token ends with a result -/
  | complete (t : Nat) (ret : Int)
  | flush
  | flushNext
  | flushed

/-- What callers and devices may do. A caller releases a reference that it holds, and with
`shfs_cache_release` only if its I/O is done. Nothing but completions comes in while a flush waits. -/
def cacheEnabled (s : Cache) : CacheEvent → Prop
  | .mount _ => s.pc = .idle
  | .aread _ _ _ => s.pc = .idle
  | .resume p _ _ => s.pc = .idle ∧ p ∈ s.adds
  | .eblank _ => s.pc = .idle
  | .release r => s.pc = .idle ∧ r ∈ s.refs ∧ s.aioIsDone r.tok = true
  | .ioabort r => s.pc = .idle ∧ r ∈ s.refs
  | .finalize r => r ∈ s.refs ∧ r.tok ≠ none ∧ s.aioIsDone r.tok = true
  | .complete t _ =>
      s.pc ≠ .loop ∧ t ∈ s.tokens ∧ (∃ c, (s.tok t).cb = some (.cce c)) ∧ (s.tok t).infly ≠ 0
  | .flush => s.pc = .idle
  | .flushNext => s.pc = .loop
  | .flushed => ∃ c, s.pc = .wait c ∧ (s.cce c).t = none

instance (cb : Option AioCb) : Decidable (∃ c, cb = some (.cce c)) :=
  match cb with
  | some (.cce c) => isTrue ⟨c, rfl⟩
  | some (.user _) => isFalse (by simp)
  | none => isFalse (by simp)

instance (pc : FlushPc) (p : Mem → Prop) [DecidablePred p] : Decidable (∃ c, pc = .wait c ∧ p c) :=
  match pc with
  | .wait c => decidable_of_iff (p c)
      ⟨fun h => ⟨c, rfl, h⟩, fun ⟨_, h, hp⟩ => FlushPc.wait.inj h ▸ hp⟩
  | .idle => isFalse (by simp)
  | .loop => isFalse (by simp)

instance (s : Cache) (e : CacheEvent) : Decidable (cacheEnabled s e) :=
  match e with
  | .mount _ | .aread _ _ _ | .eblank _ | .flush | .flushNext =>
      inferInstanceAs (Decidable (s.pc = _))
  | .resume _ _ _ | .release _ | .ioabort _ | .finalize _ | .complete _ _ =>
      inferInstanceAs (Decidable (_ ∧ _))
  | .flushed => inferInstanceAs (Decidable (∃ c, s.pc = .wait c ∧ (s.cce c).t = none))

namespace Cache

/-- Hand out a reference. -/
def giveRef (s : Cache) (c : Mem) (t : Option Nat) (blank : Bool) : Cache :=
  { s with
    refs := s.refs ++ [⟨c, t, s.issued, blank⟩]
    issued := s.issued + 1
    log := s.log ++ if t = none then [] else [.issued s.issued] }

/-- Take a reference back. -/
def takeBack (s : Cache) (r : Ref) : Cache := { s with refs := s.refs.erase r }

/-- The end of a call of `shfs_cache_aread`: what it hands out, or the call that waits. -/
def endCall (s : Cache) : CallEnd → Cache
  | .ret (.err _) => s
  | .ret (.ready c) => s.giveRef c none false
  | .ret (.pending c t) => s.giveRef c (some t) false
  | .waits p => { s with adds := s.adds ++ [p] }

/-- A call that goes on does not wait. -/
def goOn (s : Cache) (p : Pending) : Cache := { s with adds := s.adds.erase p }

end Cache

def cacheNext (conf : CacheConf) (s : Cache) : CacheEvent → Except Fault Cache
  | .mount m => .ok { s with mounted := m }
  | .aread addr cb env => do
      let (x, s) ← shfsCacheAread conf s addr cb env
      return s.endCall x
  | .resume p err env => do
      let (x, s) ← shfsCacheResume conf (s.goOn p) p err env
      return s.endCall x
  | .eblank heap => do
      match ← shfsCacheEblank conf s heap with
      | (.error _, s) => return s
      | (.ok c, s) => return s.giveRef c none true
  | .release r => do
      let s ← shfsCacheRelease conf s r.cce
      return s.takeBack r
  | .ioabort r => do
      let log := s.log ++ if s.aioIsDone r.tok = true then [] else [.aborted r.serial]
      let s ← shfsCacheReleaseIoabort conf s r.cce r.tok
      return { s.takeBack r with log := log }
  | .finalize r =>
      match r.tok with
      | none => .ok s
      | some t =>
          .ok { s.putToken t with
            refs := s.refs.map fun r' => if r' = r then { r with tok := none } else r' }
  | .complete t ret =>
      match (s.tok t).cb with
      | some (.cce c) =>
          cceAiocb conf (s.setTok t { s.tok t with infly := 0, ret := if ret < 0 then ret else 0 }) t c
      | _ => .ok s
  | .flush => .ok { s with pc := .loop }
  | .flushNext => flushNext conf s
  | .flushed =>
      match s.pc with
      | .wait c => flushDone conf s c
      | _ => .ok s

/-- The cache under its callers and devices. -/
def cache (conf : CacheConf) : Machine Cache CacheEvent Fault := ⟨cacheEnabled, cacheNext conf⟩

instance (conf : CacheConf) (s : Cache) (e : CacheEvent) : Decidable ((cache conf).Enabled s e) :=
  inferInstanceAs (Decidable (cacheEnabled s e))

/-! ## What adding does, by cases -/

section Adding

variable {conf : CacheConf} {s s' : Cache} {c : Mem}

theorem alistAppend_ok (h : s.alistAppend c = .ok s') : ∃ L E,
    DList.append s.alinks s.alist c = some (L, E) ∧ s' = { s with alinks := L, alist := E } := by
  unfold Cache.alistAppend at h
  cases happ : DList.append s.alinks s.alist c with
  | none =>
      rw [happ] at h
      cases h
  | some r =>
      rw [happ] at h
      exact ⟨r.1, r.2, rfl, (Except.ok.inj h).symm⟩

theorem clistAppend_ok {addr : Nat} (h : s.clistAppend conf c addr = .ok s') :
    ∃ L E, s' = { s with clinks := L, htable := E } := by
  unfold Cache.clistAppend at h
  simp only at h
  split at h
  · cases h
  · exact ⟨_, _, (Except.ok.inj h).symm⟩

/-- There is no buffer, or a new one, or that of an available entry, which is off its collision list. -/
theorem addBuffer_cases {heap : Option (Nat × Nat)} {b : Option Mem}
    (h : shfsCacheAddBuffer conf s heap = .ok (b, s')) :
    (b = none ∧ s' = s) ∨
      (∃ c u, b = some c ∧ s.pickCce heap = some (c, u) ∧ u.alistAppend c = .ok s') ∨
      ∃ c, b = some c ∧ s.pickCce heap = none ∧ s.findDone = some c ∧
        ((s.clistUnlink conf c).alistUnlink c).alistAppend c = .ok s' := by
  unfold shfsCacheAddBuffer at h
  cases hp : s.pickCce heap with
  | some y =>
      rw [hp] at h
      obtain ⟨u, happ, h⟩ := ok_of_bind h
      obtain ⟨rfl, rfl⟩ := Prod.mk.inj (Except.ok.inj h)
      exact .inr (.inl ⟨y.1, y.2, rfl, rfl, happ⟩)
  | none =>
      rw [hp] at h
      cases hd : s.findDone with
      | none =>
          rw [hd] at h
          obtain ⟨rfl, rfl⟩ := Prod.mk.inj (Except.ok.inj h)
          exact .inl ⟨rfl, rfl⟩
      | some c =>
          rw [hd] at h
          obtain ⟨u, happ, h⟩ := ok_of_bind h
          obtain ⟨rfl, rfl⟩ := Prod.mk.inj (Except.ok.inj h)
          exact .inr (.inr ⟨c, rfl, rfl, rfl, happ⟩)

/-- The token of a request has been picked. -/
def pickedFor (s : Cache) (c : Mem) (t addr : Nat) : Cache :=
  { s.setTok t { infly := 1, ret := 0, cb := some (.cce c), serial := 0, chunk := addr } with
    tokens := insert t s.tokens }

theorem areadChunk_ok {addr t : Nat} {io : IoStart} (h : areadChunk s c addr io = .ok (t, s')) :
    t ∉ s.tokens ∧ s' = pickedFor s c t addr := by
  unfold areadChunk at h
  split at h
  · cases h
  all_goals
    split at h
    · cases h
    · obtain ⟨rfl, rfl⟩ := Prod.mk.inj (Except.ok.inj h)
      exact ⟨‹_›, rfl⟩

/-- The request is not started, or it waits, or it is handed over; in the last two cases its token has been
picked. -/
theorem addRequest_cases {addr : Nat} {io : IoStart} {x : AddRet}
    (h : shfsCacheAddRequest conf s c addr io = .ok (x, s')) {u : Cache}
    (hu : u = s.setCce c { s.cce c with addr := addr, gen := (s.cce c).gen + 1 }) :
    (∃ e, x = .failed e ∧ s' = shfsCacheAddFail u c) ∨
      ∃ t, t ∉ u.tokens ∧ (x = .waits c t ∧ s' = pickedFor u c t addr ∨
        shfsCacheAddEnd conf (pickedFor u c t addr) c t addr none = .ok (x, s')) := by
  unfold shfsCacheAddRequest at h
  simp only [← hu] at h
  split at h
  · obtain ⟨rfl, rfl⟩ := Prod.mk.inj (Except.ok.inj h)
    exact .inl ⟨_, rfl, rfl⟩
  · rename_i t v _ hio
    obtain ⟨rfl, rfl⟩ := Prod.mk.inj (Except.ok.inj h)
    obtain ⟨ht, rfl⟩ := areadChunk_ok hio
    exact .inr ⟨t, ht, .inl ⟨rfl, rfl⟩⟩
  · rename_i t v _ hio
    obtain ⟨ht, rfl⟩ := areadChunk_ok hio
    exact .inr ⟨t, ht, .inr h⟩

/-- The entry has its token, and its address is listed. -/
theorem addEnd_ok {t addr : Nat} {x : AddRet} (h : shfsCacheAddEnd conf s c t addr none = .ok (x, s')) :
    ∃ L E, x = .added c ∧
      s' = { s.setCce c { s.cce c with t := some t } with clinks := L, htable := E } := by
  obtain ⟨u, happ, h⟩ := ok_of_bind h
  obtain ⟨rfl, rfl⟩ := Prod.mk.inj (Except.ok.inj h)
  obtain ⟨L, E, rfl⟩ := clistAppend_ok happ
  exact ⟨L, E, rfl, rfl⟩

end Adding

end Minipython.Shfs
