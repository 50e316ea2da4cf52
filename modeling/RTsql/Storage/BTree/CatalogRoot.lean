import RTsql.Storage.BTree.InPlace
import RTsql.Storage.BTree.Key
import RTsql.Library.Run

/-!
# The root of an index in the catalog

`IndexManager::insert` and `IndexManager::delete`. An operation changes the tree and publishes its
root in one task, which runs to its end even if the statement that called it is cancelled. Only then
does the statement write a new root to the catalog, outside the gate. So if it is cancelled in
between, the catalog keeps the old root (`catalog_root_left_behind`); and of two statements the one
whose root is newer may be the first to write.

Roots change rarely: `Write.inPlace` operations keep them. If no statement is cancelled whose
operation changes the root, and none changes it while another still has to write its root to the
catalog, the catalog has the root whenever no operation is running. -/

namespace RTsql.Storage.BTree.CatalogRoot

open List RTsql.Library

variable {κ v : Type}

/-! ### The system -/

/-- An operation that runs. -/
inductive Task (κ v : Type) where
  /-- It waits for the gate; if its caller was cancelled, nobody waits for it. -/
  | queued (op : Write κ v) (cancelled : Bool)
  /-- It has changed the root, and its caller is about to write it to the catalog. -/
  | syncing (root : ℕ)

/-- The root that has to go to the catalog. -/
def Task.pending : Task κ v → Option ℕ
  | queued _ _ => none
  | syncing root => some root

@[simp] theorem filterMap_pending_queued (op : Write κ v) (cancelled : Bool) (tasks : List (Task κ v)) :
    (Task.queued op cancelled :: tasks).filterMap Task.pending = tasks.filterMap Task.pending := rfl

@[simp] theorem filterMap_pending_syncing (root : ℕ) (tasks : List (Task κ v)) :
    (Task.syncing root :: tasks).filterMap Task.pending = root :: tasks.filterMap Task.pending := rfl

structure State (κ v : Type) where
  /-- The pages, and `root_page_id`. -/
  tree : Tree κ v
  /-- The root in the catalog row of the index. -/
  catalog : ℕ
  tasks : List (Task κ v)

/-- What happens next; tasks are numbered in the order of their calls. -/
inductive Label (κ v : Type) where
  /-- A statement calls an operation. -/
  | call (op : Write κ v)
  /-- The task enters the gate, changes the tree and publishes the root. -/
  | perform (n : ℕ)
  /-- `sync_root_to_catalog`. -/
  | sync (n : ℕ)
  /-- The statement is cancelled. -/
  | cancel (n : ℕ)

variable [LinearOrder κ] [OrderBot κ]

/-- The next step. An operation that keeps the root ends with its task, and so does one that nobody
waits for. -/
def step (alloc : Allocator κ v) (s : State κ v) : Label κ v → Option (State κ v)
  | .call op => some { s with tasks := s.tasks ++ [.queued op false] }
  | .perform n =>
    match s.tasks[n]? with
    | some (.queued op cancelled) =>
      let t := (op.perform alloc s.tree).2
      some { s with
        tree := t
        tasks := if t.root = s.tree.root || cancelled then s.tasks.eraseIdx n else s.tasks.set n
          (.syncing t.root) }
    | _ => none
  | .sync n =>
    match s.tasks[n]? with
    | some (.syncing root) => some { s with catalog := root, tasks := s.tasks.eraseIdx n }
    | _ => none
  | .cancel n =>
    match s.tasks[n]? with
    | some (.queued op _) => some { s with tasks := s.tasks.set n (.queued op true) }
    | some (.syncing _) => some { s with tasks := s.tasks.eraseIdx n }
    | none => none

/-- An empty index, whose root is in the catalog. -/
def init (alloc : Allocator κ v) : State κ v := ⟨Tree.new alloc, (Tree.new alloc).root, []⟩

/-- An operation that is not in place runs for a caller that waits for it, and while no other root
has to go to the catalog. -/
def PerformOk (s : State κ v) : Task κ v → Prop
  | .queued op cancelled =>
    op.inPlace s.tree = true ∨ cancelled = false ∧ ∀ t ∈ s.tasks, t.pending = none
  | .syncing _ => True

/-- In addition, no caller is cancelled that is about to write a root. -/
def Ok (s : State κ v) : Label κ v → Prop
  | .perform n => ∀ t ∈ s.tasks[n]?, PerformOk s t
  | .cancel n => ∀ t ∈ s.tasks[n]?, t.pending = none
  | _ => True

instance (s : State κ v) : ∀ t, Decidable (PerformOk s t)
  | .queued _ _ => inferInstanceAs (Decidable (_ ∨ _ ∧ _))
  | .syncing _ => isTrue trivial

instance (s : State κ v) (label : Label κ v) : Decidable (Ok s label) := by
  unfold Ok
  split <;> infer_instance

/-! ### The invariant -/

variable {alloc : Allocator κ v} {s s' : State κ v} {n : ℕ}

/-- The roots that have to go to the catalog. -/
def State.pending (s : State κ v) : List ℕ := s.tasks.filterMap Task.pending

/-- The catalog has the root, or one task is about to write it there. -/
def Inv (s : State κ v) : Prop := (s.pending = [] ∧ s.catalog = s.tree.root) ∨ s.pending = [s.tree.root]

/-- The task at a position, between the others. -/
theorem exists_split {α : Type} {l : List α} {a : α} (h : l[n]? = some a) :
    ∃ pre post, l = pre ++ a :: post ∧ l.eraseIdx n = pre ++ post ∧ ∀ b,
    l.set n b = pre ++ b :: post := by
  obtain ⟨hn, rfl⟩ := List.getElem?_eq_some_iff.mp h
  refine ⟨l.take n, l.drop (n + 1), ?_, List.eraseIdx_eq_take_drop_succ .., fun b => ?_⟩
  · rw [← List.drop_eq_getElem_cons hn, List.take_append_drop]
  · rw [List.set_eq_take_append_cons_drop, if_pos hn]

theorem inv_perform (h : Inv s) (hok : Ok s (.perform n))
    (hstep : step alloc s (.perform n) = some s') : Inv s' := by
  simp only [step] at hstep
  split at hstep
  case h_2 => cases hstep
  case h_1 op cancelled hn =>
    cases hstep
    obtain ⟨pre, post, htasks, herase, hset⟩ := exists_split hn
    have hpending : s.pending = (pre ++ post).filterMap Task.pending := by
      simp [State.pending, htasks]
    by_cases hroot : (op.perform alloc s.tree).2.root = s.tree.root
    · -- the root stays
      simp only [Inv, State.pending, hroot, decide_true, Bool.true_or, if_true, herase]
      rwa [← hpending]
    · obtain hplace | ⟨rfl, hnone⟩ := hok _ hn
      · obtain ⟨ws, hws, -⟩ := Write.perform_inPlace alloc hplace
        exact absurd (congrArg Tree.root hws) hroot
      · right
        rw [htasks] at hnone
        have hpre : pre.filterMap Task.pending = [] :=
          filterMap_eq_nil_iff.mpr fun t ht => hnone t (mem_append_left _ ht)
        have hpost : post.filterMap Task.pending = [] :=
          filterMap_eq_nil_iff.mpr fun t ht => hnone t (mem_append_right _ (mem_cons_of_mem _ ht))
        simp [State.pending, hroot, hset, hpre, hpost]

theorem inv_sync (h : Inv s) (hstep : step alloc s (.sync n) = some s') : Inv s' := by
  simp only [step] at hstep
  split at hstep
  case h_2 => cases hstep
  case h_1 root hn =>
    cases hstep
    obtain ⟨pre, post, htasks, herase, -⟩ := exists_split hn
    have hpending : s.pending = pre.filterMap Task.pending ++ root :: post.filterMap Task.pending := by
      simp [State.pending, htasks]
    -- it was the only one, so its root is the root of the tree
    rw [Inv, hpending] at h
    obtain ⟨hnil, -⟩ | hone := h
    · simp at hnil
    · obtain ⟨hpre, hroot⟩ | ⟨-, hcons⟩ := append_eq_singleton_iff.mp hone
      · obtain ⟨rfl, hpost⟩ := List.cons.inj hroot
        exact .inl ⟨by simp [State.pending, herase, hpre, hpost], rfl⟩
      · cases hcons

theorem inv_step {label : Label κ v} (h : Inv s) (hok : Ok s label)
    (hstep : step alloc s label = some s') : Inv s' := by
  cases label with
  | call op =>
    cases hstep
    simpa [Inv, State.pending] using h
  | perform n => exact inv_perform h hok hstep
  | sync n => exact inv_sync h hstep
  | cancel n =>
    simp only [step] at hstep
    split at hstep
    case h_1 op cancelled hn =>
      cases hstep
      obtain ⟨pre, post, htasks, -, hset⟩ := exists_split hn
      have hpending : s.pending = (pre ++ post).filterMap Task.pending := by
        simp [State.pending, htasks]
      rw [Inv, hpending] at h
      simpa [Inv, State.pending, hset] using h
    case h_2 root hn =>
      cases hok _ hn
    case h_3 => cases hstep

/-! ### Clean close and reopen -/

/-- The index as it is loaded after a clean close: all its pages, from the root in the catalog
on. -/
def State.reopened (s : State κ v) : Tree κ v := ⟨s.tree.pages, s.catalog⟩

/-- **The root in the catalog.** In every run in which no root is lost or overtaken on its way to
the catalog, whenever no operation is running the catalog has the published root, and the index
loads as it is. -/
theorem catalog_root_current {alloc : Allocator PaddedKey RowId} {s : State PaddedKey RowId}
    {labels : List (Label PaddedKey RowId)} (hok : Guarded Ok (step alloc) (init alloc) labels)
    (hrun : run (step alloc) (init alloc) labels = some s) (hidle : s.tasks = []) :
    s.catalog = s.tree.root ∧ s.reopened = s.tree := by
  have h : Inv s := run_invariant (fun _ _ _ h hok hstep => inv_step h hok hstep)
    (.inl ⟨rfl, rfl⟩) hok hrun
  have hpending : s.pending = [] := by rw [State.pending, hidle]; rfl
  obtain ⟨-, hroot⟩ | hone := h
  · exact ⟨hroot, by rw [State.reopened, hroot]⟩
  · cases hpending.symm.trans hone

/-- An operation that keeps the root. -/
def alone (op : Write PaddedKey RowId) : List (Label PaddedKey RowId) := [.call op, .perform 0]

/-- Two keys are in a leaf whose bytes were used up by a third one, which has come and gone. Now the
third is inserted once more, and the root is divided. -/
def growth (last : List (Label PaddedKey RowId)) : List (Label PaddedKey RowId) :=
  alone (.insert (.byte 1) ⟨0, 1⟩) ++ alone (.insert (.byte 2) ⟨0, 2⟩) ++
    (List.replicate 104 (alone (.insert (.byte 3) ⟨0, 3⟩) ++ alone (.delete (.byte 3)))).flatten ++
    [.call (.insert (.byte 3) ⟨0, 3⟩), .perform 0] ++ last

/-- The new root goes to the catalog. -/
theorem catalog_root_current_grown :
    ∃ s, run (step (Allocator.next PaddedKey RowId)) (init (Allocator.next PaddedKey RowId))
      (growth [.sync 0]) = some s ∧
      s.catalog = s.tree.root ∧ s.reopened = s.tree := by
  obtain ⟨s, hs, hidle⟩ : ∃ s, runChecked Ok (step (Allocator.next PaddedKey RowId))
      (init (Allocator.next PaddedKey RowId)) (growth [.sync 0]) = some s ∧ s.tasks = [] := by
    decide +kernel
  obtain ⟨hok, hs⟩ := of_runChecked hs
  exact ⟨s, hs, catalog_root_current hok hs hidle⟩

/-- **A root is left behind**: the statement that has divided the root is cancelled before it writes
the new root to the catalog. A key that was there is lost when the index is opened again. -/
theorem catalog_root_left_behind :
    ∃ s, run (step (Allocator.next PaddedKey RowId)) (init (Allocator.next PaddedKey RowId))
      (growth [.cancel 0]) = some s ∧
      s.tasks = [] ∧ s.catalog ≠ s.tree.root ∧ s.tree.search (.byte 2) = .ok (some ⟨0, 2⟩) ∧
      s.reopened.search (.byte 2) = .ok none := by
  decide +kernel

end RTsql.Storage.BTree.CatalogRoot
