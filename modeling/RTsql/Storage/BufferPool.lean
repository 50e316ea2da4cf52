import Mathlib.Data.List.AList
import Mathlib.Data.Multiset.Filter
import Mathlib.Data.Multiset.Bind
import RTsql.Library.Run

/-!
# The buffer pool

`BufferPool::{get_page, evict_one, flush_all, flush_all_except, flush_pages}`, `PageFrame` and
`PageGuard`, over any type `β` of page contents.

A frame is shared: the map from pages to frames holds one reference to it, and so do the guards and
the eviction that looks at it. So a frame can be used after it was taken out of the map, and frames
have numbers of their own here.

Every function is cut into the steps between which other tasks run. The lock of a frame is held
within one step, the loading lock of a page and the lock of the clock hand over many. Storage may
fail at every call, and a write that fails leaves any bytes behind. -/

namespace RTsql.Storage.BufferPool

open RTsql.Library
open Function (update)

universe u

variable {β : Type u}

/-! ### Frames -/

/-- `PageFrame`. Its `page` is here the number and the contents. -/
structure Frame (β : Type u) where
  id : ℕ
  data : β
  dirty : Bool
  refCount : ℕ
  clockBit : Bool
  writeInFlight : Bool

def Frame.new (id : ℕ) (data : β) : Frame β := ⟨id, data, false, 0, true, false⟩

/-- `PageGuard::new`. -/
def Frame.reference (fr : Frame β) : Frame β := { fr with refCount := fr.refCount + 1, clockBit := true }

/-- `PageGuard::drop`. -/
def Frame.release (fr : Frame β) : Frame β := { fr with refCount := fr.refCount - 1 }

/-- `modify_page`; `mark_dirty` if the contents stay. -/
def Frame.modify (data : β) (fr : Frame β) : Frame β := { fr with data := data, dirty := true }

/-- `claim_dirty_for_write`, of a frame for which it returns a copy. -/
def Frame.claim (fr : Frame β) : Frame β := { fr with dirty := false, writeInFlight := true }

/-- The write has returned. -/
def Frame.finish (success : Bool) (fr : Frame β) : Frame β :=
  { fr with writeInFlight := false, dirty := fr.dirty || !success }

/-- The eviction passes over it. -/
def Frame.clearClockBit (fr : Frame β) : Frame β := { fr with clockBit := false }

def Frame.Claimable (fr : Frame β) : Prop := fr.dirty = true ∧ fr.writeInFlight = false

instance (fr : Frame β) : Decidable fr.Claimable := inferInstanceAs (Decidable (_ ∧ _))

/-- A copy of a page that is being written. -/
structure Copy (β : Type u) where
  page : ℕ
  data : β
  /-- How often the page had been modified when the copy was made. -/
  mods : ℕ
  deriving DecidableEq

/-! ### Memory and storage -/

structure Memory (β : Type u) where
  frames : ℕ → Frame β
  /-- The next frame's number. -/
  next : ℕ
  /-- `pages` -/
  pages : AList fun _ : ℕ => ℕ
  storage : ℕ → β
  /-- What the last modification of the page left, and how many there were. -/
  last : ℕ → β
  mods : ℕ → ℕ
  /-- How many modifications the last successful write of the page includes. -/
  written : ℕ → ℕ

namespace Memory

def change (m : Memory β) (f : ℕ) (g : Frame β → Frame β) : Memory β :=
  { m with frames := update m.frames f (g (m.frames f)) }

/-- The contents of the page `p`, whose frame is `f`, are modified. -/
def modify (m : Memory β) (p f : ℕ) (data : β) : Memory β :=
  { m.change f (Frame.modify data) with
    last := update m.last p data
    mods := update m.mods p (m.mods p + 1) }

/-- The copy that is made of a page. -/
def copy (m : Memory β) (p f : ℕ) : Copy β := ⟨p, (m.frames f).data, m.mods p⟩

/-- `finish_write_in_flight`, of the frame that the page has now. -/
def finish (m : Memory β) (p : ℕ) (success : Bool) : Memory β :=
  match m.pages.lookup p with
  | some f => m.change f (Frame.finish success)
  | none => m

/-- `restore_dirty_from`. -/
def restore (m : Memory β) (claimed : List (Copy β)) : Memory β :=
  claimed.foldl (fun m c => m.finish c.page false) m

/-- The copy is in storage. -/
def store (m : Memory β) (c : Copy β) : Memory β :=
  { m with
    storage := update m.storage c.page c.data
    written := update m.written c.page c.mods }

/-- A write of the page leaves these bytes, and has not succeeded. -/
def tear (m : Memory β) (p : ℕ) (bytes : β) : Memory β :=
  { m with storage := update m.storage p bytes }

/-- A page that was read gets a frame. -/
def insert (m : Memory β) (p : ℕ) (data : β) : Memory β :=
  { m with
    frames := update m.frames m.next (Frame.new p data)
    next := m.next + 1
    pages := m.pages.insert p m.next }

def remove (m : Memory β) (p : ℕ) : Memory β := { m with pages := m.pages.erase p }

end Memory

/-! ### Tasks -/

/-- Where `evict_one` is. -/
inductive Choice (β : Type u) where
  /-- About to look at the next candidate. -/
  | looking
  /-- It waits for the write of its candidate, whose frame is `f`. -/
  | writing (f : ℕ) (copy : Copy β)
  /-- It has seen that the candidate is clean, and is about to remove it. -/
  | removing (victim : ℕ)
  deriving DecidableEq

/-- A call of `get_page`, and then the guard it returned. -/
inductive Call (β : Type u) where
  /-- The page was not in the pool. -/
  | missed (p : ℕ)
  /-- It has the loading lock of the page. -/
  | locked (p : ℕ)
  /-- It has looked again. -/
  | absent (p : ℕ)
  /-- It runs `evict_one`, which looks at so many candidates more. -/
  | evicting (p left : ℕ) (choice : Choice β)
  | reading (p : ℕ)
  | read (p : ℕ) (data : β)
  | inserted (p f : ℕ)
  /-- The page is on the clock. -/
  | pushed (p f : ℕ)
  | holds (p f : ℕ)
  | ended
  deriving DecidableEq

/-- The page whose loading lock it has. -/
def Call.lock : Call β → Option ℕ
  | locked p | absent p | evicting p _ _ | reading p | read p _ | inserted p _ | pushed p _ => some p
  | _ => none

/-- It has the lock of the clock hand. -/
def Call.isEvicting : Call β → Bool
  | evicting _ _ _ => true
  | _ => false

/-- The page and the frame of which it has a guard, or will. -/
def Call.uses : Call β → Option (ℕ × ℕ)
  | inserted p f | pushed p f | holds p f => some (p, f)
  | _ => none

/-- What it is writing. -/
def Call.claimed : Call β → List (Copy β)
  | evicting _ _ (.writing _ copy) => [copy]
  | _ => []

/-- A call of `flush_all`, `flush_all_except` or `flush_pages`. -/
inductive Flush (β : Type u) where
  /-- The first two collect the dirty pages and then write them. -/
  | collecting (rest : List ℕ) (claimed : List (Copy β))
  | writing (claimed : List (Copy β))
  /-- `flush_pages` writes each page at once. -/
  | visiting (rest : List ℕ)
  | writingOne (copy : Copy β) (rest : List ℕ)
  | ended
  /-- A write has failed. -/
  | failed

/-- The pages whose `write_in_flight` it has set. -/
def Flush.claimed : Flush β → List (Copy β)
  | collecting _ claimed | writing claimed => claimed
  | writingOne copy _ => [copy]
  | visiting _ | ended | failed => []

structure State (β : Type u) where
  mem : Memory β
  /-- `clock_hand` -/
  hand : List ℕ
  capacity : ℕ
  calls : List (Call β)
  flushes : List (Flush β)

def init (capacity : ℕ) (contents : ℕ → β) : State β where
  mem := {
    frames := fun p => Frame.new p (contents p)
    next := 0
    pages := ∅
    storage := contents
    last := contents
    mods := fun _ => 0
    written := fun _ => 0 }
  hand := []
  capacity := capacity
  calls := []
  flushes := []

/-- What happens next. Calls and flushes are numbered in the order in which they start. A write has
`failed` with the bytes it left. -/
inductive Label (β : Type u) where
  | get (p : ℕ)
  /-- A call goes on, up to its next access to storage. -/
  | advance (n : ℕ)
  | read (n : ℕ) (success : Bool)
  /-- The write of a candidate returns. -/
  | evicted (n : ℕ) (failed : Option β)
  | modify (n : ℕ) (data : β)
  | drop (n : ℕ)
  /-- `flush_all_except` is called, and will visit the pages in this order; `flush_all` excludes
  none. -/
  | flush (exclude order : List ℕ)
  | flushPages (order : List ℕ)
  /-- A flush goes on, up to its next access to storage. -/
  | visit (n : ℕ)
  | wrote (n : ℕ) (failed : Option β)
  /-- Some bytes of a write that has not returned reach the file. -/
  | tear (p : ℕ) (bytes : β)

namespace State

/-- A call is now at `call`. -/
def goto (s : State β) (n : ℕ) (call : Call β) : State β := { s with calls := s.calls.set n call }

def gotoFlush (s : State β) (n : ℕ) (flush : Flush β) : State β :=
    { s with flushes := s.flushes.set n flush }

def change (s : State β) (f : ℕ) (g : Frame β → Frame β) : State β := { s with mem := s.mem.change f g }

/-- The copies that are being written. -/
def copies (s : State β) : List (Copy β) :=
    s.calls.flatMap Call.claimed ++ s.flushes.flatMap Flush.claimed

/-- `evict_one`, called for the page `p`, looks at the next candidate. -/
def look (s : State β) (n p : ℕ) : ℕ → State β
  | 0 => s.goto n .ended
  | left + 1 =>
    match s.hand with
    | [] => s.goto n .ended
    | victim :: hand =>
      match s.mem.pages.lookup victim with
      | none => { s with hand := hand }.goto n (.evicting p left .looking)
      | some f =>
        let fr := s.mem.frames f
        let later := { s with hand := hand ++ [victim] }.goto n (.evicting p left .looking)
        if 0 < fr.refCount ∨ fr.writeInFlight = true then later
        else if fr.clockBit then later.change f Frame.clearClockBit
        else if fr.dirty then
          ({ s with hand := hand }.change f Frame.claim).goto n
            (.evicting p left (.writing f (s.mem.copy victim f)))
        else { s with hand := hand }.goto n (.evicting p left (.removing victim))

/-- The next step of a call. -/
def advance (s : State β) (n : ℕ) : Call β → Option (State β)
  | .missed p => if s.calls.all (·.lock ≠ some p) then some (s.goto n (.locked p)) else none
  | .locked p =>
    some (match s.mem.pages.lookup p with
      | some f => (s.change f Frame.reference).goto n (.holds p f)
      | none => s.goto n (.absent p))
  | .absent p =>
    if s.mem.pages.entries.length < s.capacity then some (s.goto n (.reading p))
    else if s.calls.all (!·.isEvicting) then some (s.goto n (.evicting p (s.hand.length * 2) .looking))
    else none
  | .evicting p left .looking => some (s.look n p left)
  | .evicting p _ (.removing victim) => some ({ s with mem := s.mem.remove victim }.goto n (.reading p))
  | .read p data => some ({ s with mem := s.mem.insert p data }.goto n (.inserted p s.mem.next))
  | .inserted p f =>
    if s.calls.all (!·.isEvicting) then some ({ s with hand := s.hand ++ [p] }.goto n (.pushed p f))
    else none
  | .pushed p f => some ((s.change f Frame.reference).goto n (.holds p f))
  | .evicting _ _ (.writing _ _) | .reading _ | .holds _ _ | .ended => none

/-- The write of a candidate returns. A page that was modified meanwhile stays. -/
def evicted (s : State β) (n : ℕ) (failed : Option β) : Call β → Option (State β)
  | .evicting p left (.writing f copy) =>
    some (match failed with
      | some bytes =>
        { s with
          mem := (s.mem.tear copy.page bytes).change f (Frame.finish false)
          hand := s.hand ++ [copy.page] }.goto n .ended
      | none =>
        let s := { s with mem := (s.mem.store copy).change f (Frame.finish true) }
        if (s.mem.frames f).dirty then
          { s with hand := s.hand ++ [copy.page] }.goto n (.evicting p left .looking)
        else s.goto n (.evicting p left (.removing copy.page)))
  | _ => none

/-- The flush looks at the next page. -/
def visit (s : State β) (n : ℕ) : Flush β → Option (State β)
  | .collecting [] claimed => some (s.gotoFlush n (.writing claimed))
  | .collecting (p :: rest) claimed =>
    some (match s.mem.pages.lookup p with
      | some f =>
        if (s.mem.frames f).Claimable then
          (s.change f Frame.claim).gotoFlush n (.collecting rest (claimed ++ [s.mem.copy p f]))
        else s.gotoFlush n (.collecting rest claimed)
      | none => s.gotoFlush n (.collecting rest claimed))
  | .writing [] | .visiting [] => some (s.gotoFlush n .ended)
  | .visiting (p :: rest) =>
    some (match s.mem.pages.lookup p with
      | some f =>
        if (s.mem.frames f).Claimable then
          (s.change f Frame.claim).gotoFlush n (.writingOne (s.mem.copy p f) rest)
        else s.gotoFlush n (.visiting rest)
      | none => s.gotoFlush n (.visiting rest))
  | .writing (_ :: _) | .writingOne _ _ | .ended | .failed => none

/-- The write of a page returns, after which the flush is at `next`. If it failed, the pages it has
claimed are dirty again. -/
def afterWrite (s : State β) (n : ℕ) (copy : Copy β) (rest : List (Copy β)) (next : Flush β) :
    Option β → State β
  | none => { s with mem := (s.mem.store copy).finish copy.page true }.gotoFlush n next
  | some bytes => { s with mem := (s.mem.tear copy.page bytes).restore (copy :: rest) }.gotoFlush n .failed

def wrote (s : State β) (n : ℕ) (failed : Option β) : Flush β → Option (State β)
  | .writing (copy :: rest) => some (s.afterWrite n copy rest (.writing rest) failed)
  | .writingOne copy rest => some (s.afterWrite n copy [] (.visiting rest) failed)
  | _ => none

end State

def step (s : State β) : Label β → Option (State β)
  | .get p =>
    some (match s.mem.pages.lookup p with
      | some f => { s.change f Frame.reference with calls := s.calls ++ [.holds p f] }
      | none => { s with calls := s.calls ++ [.missed p] })
  | .advance n => s.calls[n]?.bind (s.advance n)
  | .read n success =>
    match s.calls[n]? with
    | some (.reading p) => some (s.goto n (if success then .read p (s.mem.storage p) else .ended))
    | _ => none
  | .evicted n failed => s.calls[n]?.bind (s.evicted n failed)
  | .modify n data =>
    match s.calls[n]? with
    | some (.holds p f) => some { s with mem := s.mem.modify p f data }
    | _ => none
  | .drop n =>
    match s.calls[n]? with
    | some (.holds _ f) => some ((s.change f Frame.release).goto n .ended)
    | _ => none
  | .flush exclude order =>
    some { s with flushes := s.flushes ++ [.collecting (order.filter (· ∉ exclude)) []] }
  | .flushPages order => some { s with flushes := s.flushes ++ [.visiting order] }
  | .visit n => s.flushes[n]?.bind (s.visit n)
  | .wrote n failed => s.flushes[n]?.bind (s.wrote n failed)
  | .tear p bytes => if p ∈ s.copies.map Copy.page then some { s with mem := s.mem.tear p bytes } else none

/-! ### The condition -/

/-- The page can be taken out of the pool: its frame is clean and nobody has a guard of it, or is
about to get one from the call that loaded it. -/
def State.Removable (s : State β) (victim : ℕ) : Prop :=
  ∀ f ∈ s.mem.pages.lookup victim,
    (s.mem.frames f).dirty = false ∧ (s.mem.frames f).writeInFlight = false ∧
      ∀ call ∈ s.calls, call.uses ≠ some (victim, f)

instance (s : State β) (victim : ℕ) : Decidable (s.Removable victim) :=
  inferInstanceAs (Decidable (∀ f ∈ _, _ ∧ _))

/-- When `evict_one` removes a page, what it saw of the frame still holds. -/
def Ok (s : State β) : Label β → Prop
  | .advance n =>
    match s.calls[n]? with
    | some (.evicting _ _ (.removing victim)) => s.Removable victim
    | _ => True
  | _ => True

instance (s : State β) (label : Label β) : Decidable (Ok s label) := by
  unfold Ok
  repeat' split
  all_goals infer_instance

end RTsql.Storage.BufferPool
