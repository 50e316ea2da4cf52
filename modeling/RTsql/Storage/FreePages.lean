import Mathlib.Data.Finset.Basic
import RTsql.Library.Run

/-!
# Reuse of freed pages

`FileStorage::{allocate_page, free_page, complete_free_release, promote_free_releases,
discard_free_releases}`, with `BufferPool::{evict_one, flush_all, free_page}` and the part of
`CheckpointManager::checkpoint` that calls them.

A freed page waits in `pending_frees`. Whoever frees pages tells `complete_free_release` which pages
no longer refer to them (the anchors). A checkpoint reads the number of completed releases, flushes
the pool, and then lets the pages of these releases be allocated again, unless an anchor is among
the pages whose last write failed.

Every call is cut into the steps between which other tasks run: a flush first claims dirty pages one
by one, then writes them one by one, and any write may fail. `evict_one` holds the lock of
`clock_hand` while it writes, so that there is one eviction at a time; `free_page` takes the frame
out of the pool before it waits for that lock, and frees the page behind it. -/

namespace RTsql.Storage.FreePages

open RTsql.Library

/-! ### The buffer pool -/

/-- The pool: the pages that have a frame, and among them those whose `dirty` and whose
`write_in_flight` is set. -/
structure Pool where
  frames : Finset ℕ
  dirty : Finset ℕ
  busy : Finset ℕ

/-- `get_page`. -/
def Pool.load (pool : Pool) (p : ℕ) : Pool := { pool with frames := insert p pool.frames }

/-- A page is loaded and changed. -/
def Pool.modify (pool : Pool) (p : ℕ) : Pool := { pool.load p with dirty := insert p pool.dirty }

/-- The frame is taken out of the pool, with all it holds. -/
def Pool.remove (pool : Pool) (p : ℕ) : Pool :=
  ⟨pool.frames.erase p, pool.dirty.erase p, pool.busy.erase p⟩

def Pool.Claimable (pool : Pool) (p : ℕ) : Prop := p ∈ pool.dirty ∧ p ∉ pool.busy

instance (pool : Pool) (p : ℕ) : Decidable (pool.Claimable p) := inferInstanceAs (Decidable (_ ∧ _))

/-- `claim_dirty_for_write`, of a page for which it returns a copy. -/
def Pool.claim (pool : Pool) (p : ℕ) : Pool :=
  { pool with dirty := pool.dirty.erase p, busy := insert p pool.busy }

/-- `finish_write_in_flight`. -/
def Pool.finish (pool : Pool) (p : ℕ) (success : Bool) : Pool :=
  if p ∈ pool.frames then
    { pool with busy := pool.busy.erase p, dirty := if success then pool.dirty else insert p pool.dirty }
  else pool

/-- `restore_dirty_from`. -/
def Pool.restore (pool : Pool) (claimed : List ℕ) : Pool :=
    claimed.foldl (fun pool p => pool.finish p false) pool

/-- A page that `evict_one` writes. -/
structure Eviction where
  page : ℕ
  /-- The frame it has is the pool's: the page was not freed meanwhile. -/
  attached : Bool
  deriving DecidableEq

/-- The page is freed. -/
def Eviction.detach (p : ℕ) (e : Eviction) : Eviction := { e with attached := e.attached && e.page != p }

/-- The end of `evict_one`: a frame that is clean is removed, by its page number. Of a frame that is
no longer the pool's only the caller knows whether it is `clean`. -/
def Eviction.leave (e : Eviction) (success clean : Bool) (pool : Pool) : Pool :=
  if e.attached then
    let pool := pool.finish e.page success
    if success ∧ e.page ∉ pool.dirty then pool.remove e.page else pool
  else if success ∧ clean then pool.remove e.page else pool

/-! ### Releases and checkpoints -/

/-- A `PendingRelease`, and which of its anchors were not written since it was completed. -/
structure Release where
  page : ℕ
  completion : Option ℕ
  anchors : List ℕ
  due : List ℕ

/-- The anchor `p` is written. -/
def Release.written (p : ℕ) (r : Release) : Release := { r with due := r.due.filter (· ≠ p) }

/-- `complete_free_release`, on one entry. -/
def Release.complete (pages : List ℕ) (id : ℕ) (anchors : List ℕ) (r : Release) : Release :=
  if r.completion = none ∧ r.page ∈ pages then ⟨r.page, some id, anchors, anchors⟩ else r

/-- It was completed before `limit` was sampled. -/
def Release.covered (limit : ℕ) (r : Release) : Bool := r.completion.any (· < limit)

/-- A checkpoint, or a flush of some pages by another caller, which has no `limit`. -/
inductive Flush where
  /-- `checkpoint` has found nothing to do and is about to sample. -/
  | unneeded
  | skipped (limit : ℕ)
  | sampled (limit : Option ℕ)
  /-- The first phase of `flush_all`: the pages to visit, and those it writes afterwards. -/
  | collecting (limit : Option ℕ) (rest claimed : List ℕ)
  | writing (limit : Option ℕ) (claimed : List ℕ)
  | failed (limit : Option ℕ)
  deriving DecidableEq

def Flush.limit : Flush → Option ℕ
  | unneeded => none
  | skipped limit => some limit
  | sampled limit | collecting limit _ _ | writing limit _ | failed limit => limit

/-- The pages whose `write_in_flight` it has set. -/
def Flush.claimed : Flush → List ℕ
  | collecting _ _ claimed | writing _ claimed => claimed
  | _ => []

structure State where
  pool : Pool
  /-- The holder of the lock, if it is writing. -/
  evicting : Option Eviction
  /-- Pages whose frame `free_page` has removed, and which wait for the lock. -/
  freeing : List ℕ
  flushes : List Flush
  /-- `failed_pages` -/
  failed : Finset ℕ
  /-- `release_id` -/
  releaseId : ℕ
  /-- `pending_frees` -/
  pending : List Release
  /-- `free_pages`, the next one first -/
  free : List Release
  /-- Pages off the free list that `allocate_page` is filling with zeros. -/
  zeroing : List Release
  /-- Calls of `allocate_page` that found no free page. -/
  growing : ℕ
  /-- `file_len` -/
  fileLen : ℕ
  /-- The pages handed out and not freed since. -/
  owned : Finset ℕ

/-- `write_page` returns. -/
def State.attempted (s : State) (p : ℕ) (success : Bool) : State :=
  if success then { s with failed := s.failed.erase p, pending := s.pending.map (Release.written p) }
  else { s with failed := insert p s.failed }

/-- `promote_free_releases` takes this entry. -/
def State.promotes (s : State) (limit : ℕ) (r : Release) : Bool :=
  r.covered limit && r.anchors.all (· ∉ s.failed)

/-- `promote_free_releases`. -/
def State.promote (s : State) (limit : ℕ) : State :=
  { s with
    pending := s.pending.filter fun r => !s.promotes limit r
    free := (s.pending.filter fun r => s.promotes limit r).reverse ++ s.free }

/-- `discard_free_releases`. -/
def State.discard (s : State) (limit : ℕ) : State :=
  { s with pending := s.pending.filter fun r => !r.covered limit }

/-- What happens next. Flushes and allocations are numbered in the order in which they started. -/
inductive Label where
  | load (p : ℕ)
  | modify (p : ℕ)
  /-- `evict_one` removes a clean frame. -/
  | drop (p : ℕ)
  /-- `evict_one` begins to write a dirty frame. -/
  | evict (p : ℕ)
  | evicted (success clean : Bool)
  /-- `BufferPool::free_page`, before it has the lock and behind it. -/
  | unframe (p : ℕ)
  | free (p : ℕ)
  | complete (pages anchors : List ℕ)
  /-- `allocate_page` looks at the free list. -/
  | allocate
  /-- The zeros are written, and `allocate_page` returns. -/
  | zeroed (n : ℕ) (success : Bool)
  /-- `allocate_page` makes the file longer, and returns. -/
  | extend (success : Bool)
  /-- `checkpoint` finds no dirty page. -/
  | check
  | skip (n : ℕ)
  /-- `checkpoint` samples the limit, or another caller begins a flush. -/
  | flush (checkpoint : Bool)
  /-- The flush begins to visit frames, in this order. -/
  | collect (n : ℕ) (order : List ℕ)
  | visit (n : ℕ)
  | write (n : ℕ) (success : Bool)
  /-- `promote_free_releases` or `discard_free_releases`. -/
  | finish (n : ℕ)

/-- The end of a flush. -/
def State.finish (s : State) : Flush → Option State
  | .skipped limit | .writing (some limit) [] => some (s.promote limit)
  | .failed (some limit) => some (s.discard limit)
  | .writing none [] | .failed none => some s
  | _ => none

/-- The flush visits the next frame, or has visited all. -/
def State.visit (s : State) (n : ℕ) : Flush → Option State
  | .collecting limit (p :: rest) claimed =>
    some (if s.pool.Claimable p then
        { s with pool := s.pool.claim p
                 flushes := s.flushes.set n (.collecting limit rest (claimed ++ [p])) }
      else { s with flushes := s.flushes.set n (.collecting limit rest claimed) })
  | .collecting limit [] claimed => some { s with flushes := s.flushes.set n (.writing limit claimed) }
  | _ => none

/-- The write of the next page returns. If it failed, the flush gives up and all its pages are dirty
again. -/
def State.write (s : State) (n : ℕ) (success : Bool) : Flush → Option State
  | .writing limit (p :: claimed) =>
    some (if success then
        { s.attempted p true with
          pool := s.pool.finish p true
          flushes := s.flushes.set n (.writing limit claimed) }
      else
        { s.attempted p false with
          pool := s.pool.restore (p :: claimed)
          flushes := s.flushes.set n (.failed limit) })
  | _ => none

/-- The next step. `flush_all` visits every frame that is in the pool when it begins; the other
callers flush some of them. -/
def step (s : State) : Label → Option State
  | .load p => some { s with pool := s.pool.load p }
  | .modify p => some { s with pool := s.pool.modify p }
  | .drop p =>
    if s.evicting = none ∧ p ∉ s.pool.dirty ∧
      p ∉ s.pool.busy then some { s with pool := s.pool.remove p } else none
  | .evict p =>
    if s.evicting = none ∧ s.pool.Claimable p then
      some { s with pool := s.pool.claim p, evicting := some ⟨p, true⟩ }
    else none
  | .evicted success clean =>
    s.evicting.map fun e =>
      { s.attempted e.page success with pool := e.leave success clean s.pool, evicting := none }
  | .unframe p =>
    some { s with
      pool := s.pool.remove p
      evicting := s.evicting.map (Eviction.detach p)
      freeing := s.freeing ++ [p] }
  | .free p =>
    if s.evicting = none ∧ p ∈ s.freeing then
      some { s with
        freeing := s.freeing.erase p
        pending := s.pending ++ [⟨p, none, [], []⟩]
        owned := s.owned.erase p }
    else none
  | .complete pages anchors =>
    some (if pages = [] then s else
      { s with
        releaseId := s.releaseId + 1
        pending := s.pending.map (Release.complete pages s.releaseId anchors) })
  | .allocate =>
    match s.free with
    | [] => some { s with growing := s.growing + 1 }
    | r :: free => some { s with free := free, zeroing := s.zeroing ++ [r] }
  | .zeroed n success =>
    s.zeroing[n]?.map fun r =>
      if success then
        { s.attempted r.page true with zeroing := s.zeroing.eraseIdx n, owned := insert r.page s.owned }
      else
        { s.attempted r.page false with zeroing := s.zeroing.eraseIdx n, free := r :: s.free }
  | .extend success =>
    if 0 < s.growing then
      some { s with
        growing := s.growing - 1
        fileLen := s.fileLen + 1
        owned := if success then insert s.fileLen s.owned else s.owned }
    else none
  | .check => if s.pool.dirty = ∅ then some { s with flushes := s.flushes ++ [.unneeded] } else none
  | .skip n =>
    if s.flushes[n]? = some .unneeded then
      some { s with flushes := s.flushes.set n (.skipped s.releaseId) }
    else none
  | .flush checkpoint =>
    some { s with flushes := s.flushes ++ [.sampled (if checkpoint then some s.releaseId else none)] }
  | .collect n order =>
    match s.flushes[n]? with
    | some (.sampled limit) =>
      if limit.isSome → s.pool.frames ⊆ order.toFinset then
        some { s with flushes := s.flushes.set n (.collecting limit order []) }
      else none
    | _ => none
  | .visit n => s.flushes[n]?.bind (s.visit n)
  | .write n success => s.flushes[n]?.bind (s.write n success)
  | .finish n => s.flushes[n]?.bind fun f => State.finish { s with flushes := s.flushes.eraseIdx n } f

/-- A file of `n` pages, all in use. -/
def init (n : ℕ) : State := ⟨⟨∅, ∅, ∅⟩, none, [], [], ∅, 0, [], [], [], 0, n, Finset.range n⟩

/-- The page that `allocate_page` returns in this step, with its release if it is not a new one. -/
def State.returned (s : State) : Label → Option (ℕ × Option Release)
  | .zeroed n true => s.zeroing[n]?.map fun r => (r.page, some r)
  | .extend true => some (s.fileLen, none)
  | _ => none

/-- `allocate_page` returns no page that is in use, and a released one only if the release was
completed and since then each anchor was written. -/
def AllocatesSafely (s : State) (label : Label) : Prop :=
  ∀ g ∈ s.returned label, g.1 ∉ s.owned ∧ ∀ r ∈ g.2, r.completion.isSome ∧ r.due = []

/-- Nobody writes the page, apart from `flushes` that have not claimed it. -/
def State.Untouched (s : State) (p : ℕ) : Prop :=
  (∀ e ∈ s.evicting, e.page ≠ p) ∧ ∀ f ∈ s.flushes, p ∉ f.claimed

/-- Only pages in use are freed, by one call, and no anchors of pages that wait. A release is
completed when its anchors are dirty and nobody writes them, and not between the check and the
sample of a checkpoint without work. At most one flush runs; a checkpoint finds nothing to do only
when no page is being written; and when a checkpoint has flushed the pool, no anchor of its releases
is being evicted. -/
def Ok (s : State) : Label → Prop
  | .unframe p => p ∈ s.owned ∧ p ∉ s.freeing ∧ ∀ r ∈ s.pending, p ∉ r.anchors
  | .complete _ anchors => .unneeded ∉ s.flushes ∧ ∀ a ∈ anchors, a ∈ s.pool.dirty ∧ s.Untouched a
  | .check => s.flushes = [] ∧ s.evicting = none
  | .flush _ => s.flushes = []
  | .finish n => ∀ f ∈ s.flushes[n]?, ∀ limit ∈ f.limit, ∀ r ∈ s.pending, r.covered limit = true →
      ∀ a ∈ r.anchors, ∀ e ∈ s.evicting, e.page ≠ a
  | _ => True

instance (s : State) (p : ℕ) : Decidable (s.Untouched p) := inferInstanceAs (Decidable (_ ∧ _))

instance (s : State) (label : Label) : Decidable (Ok s label) := by
  unfold Ok
  split <;> infer_instance

instance (s : State) (label : Label) : Decidable (AllocatesSafely s label) :=
  inferInstanceAs (Decidable (∀ g ∈ _, _))

end RTsql.Storage.FreePages
