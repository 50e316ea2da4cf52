import RTsql.Storage.BTree.InPlace
import RTsql.Storage.BTree.Refinement

/-!
# Readers beside a writer

`IndexManager::search` begins at the published root and goes from page to page without a lock.
Operations that change the index take turns: each writes its pages one at a time and publishes the
root in the end. So a search sees the pages of an operation as far as they are written.

A search sees all that it should if the operations beside it are in place: they write one leaf, and
the way of a key does not change (`search_finds_stable_key`). When a leaf is divided, its page is
cut in half before the other half is written anywhere, and keys are missed
(`search_misses_stable_key`).
-/

namespace RTsql.Storage.BTree.Readers

open RTsql.Library Proc

variable {κ v : Type} {m : Multiset (κ × v)} {pid : ℕ} {key : κ} {o : Finset ℕ}

/-! ### The system -/

/-- The operation under the gate. -/
structure Writer (κ v : Type) where
  op : Write κ v
  /-- The page writes still to be made. -/
  rest : List (PageWrite κ v)
  root : ℕ
  /-- The operation writes the leaf of its key only. -/
  inPlace : Bool

/-- Where a search is. -/
inductive Place (v : Type) where
  /-- About to read a page. -/
  | at (pid : ℕ)
  | done (result : Except TreeError (Option v))

/-- A search. -/
structure Reader (κ v : Type) where
  key : κ
  /-- What the index had for the key when the search began. -/
  expect : Option v
  /-- No operation on the key has overlapped the search. -/
  stable : Bool
  place : Place v

/-- The search goes on. -/
def Reader.searching (r : Reader κ v) : Bool :=
  match r.place with
  | .at _ => true
  | .done _ => false

structure State (κ v : Type) where
  pages : Pages κ v
  /-- `root_page_id`. -/
  root : ℕ
  /-- What the operations that have returned have made of the index. -/
  map : κ → Option v
  writer : Option (Writer κ v)
  reader : Option (Reader κ v)

/-- What happens next. -/
inductive Label (κ v : Type) where
  /-- An operation enters the gate. -/
  | enter (op : Write κ v)
  /-- It makes its next page write. -/
  | write
  /-- It publishes the root and leaves the gate. -/
  | publish
  /-- A search reads the root. -/
  | start (key : κ)
  /-- It reads its next page; `stale` is what the file has for a page that is not in use. -/
  | read (stale : Page κ v)

section Step

variable [LinearOrder κ] {r : Reader κ v}

/-- A search reads a page: `search_from_page_async`. -/
def Reader.read (r : Reader κ v) : Page κ v → Place v
  | .raw => .done (.error .invalidPageType)
  | .leaf l => .done (.ok (l.find r.key))
  | .internal n => .at (n.findChildPageIdBinary r.key)

/-- A search that goes on beside an operation on its key is not stable. -/
def Reader.beside (r : Reader κ v) (key : κ) : Reader κ v :=
  if r.searching then { r with stable := r.stable && decide (key ≠ r.key) } else r

theorem Reader.beside_place (r : Reader κ v) (key : κ) : (r.beside key).place = r.place := by
  rw [beside]
  split <;> rfl

/-- A search that is still stable beside an operation is one for another key. -/
theorem Reader.stable_of_beside (hat : r.place = .at pid)
    (h : (r.beside key).stable = true) : r.stable = true ∧ r.key ≠ key := by
  have hsearching : r.searching = true := by rw [searching, hat]
  rw [beside, if_pos hsearching] at h
  obtain ⟨hst, hne⟩ := Bool.and_eq_true_iff.mp h
  exact ⟨hst, fun heq => of_decide_eq_true hne heq.symm⟩

theorem Reader.beside_of_done {x : Except TreeError (Option v)} (key : κ) (hdone : r.place = .done x) :
    r.beside key = r := by
  have hsearching : ¬ r.searching = true := by simp [searching, hdone]
  rw [beside, if_neg hsearching]

variable [OrderBot κ]

/-- The next step. The page writes of an operation, and the order they are made in, are those of the
tree. -/
def step (alloc : Allocator κ v) (s : State κ v) : Label κ v → Option (State κ v)
  | .enter op =>
    if s.writer.isNone then
      let t := (op.perform alloc ⟨s.pages, s.root⟩).2
      some { s with
        writer := some ⟨op, s.pages.newWrites t.pages, t.root, op.inPlace ⟨s.pages, s.root⟩⟩
        reader := s.reader.map (·.beside op.key) }
    else none
  | .write =>
    match s.writer with
    | some ⟨op, w :: rest, root, inPlace⟩ =>
      some { s with pages := s.pages.push w, writer := some ⟨op, rest, root, inPlace⟩ }
    | _ => none
  | .publish =>
    match s.writer with
    | some ⟨op, [], root, _⟩ => some { s with root := root, map := op.apply s.map, writer := none }
    | _ => none
  | .start key =>
    some { s with reader := some ⟨key, s.map key, s.writer.all fun w => w.op.key ≠ key, .at s.root⟩ }
  | .read stale =>
    match s.reader with
    | some ⟨key, expect, stable, .at pid⟩ =>
      let r : Reader κ v := ⟨key, expect, stable, .at pid⟩
      some { s with reader := some { r with place := r.read ((s.pages.get pid).getD stale) } }
    | _ => none

/-- An empty index. -/
def init (alloc : Allocator κ v) : State κ v :=
  ⟨(Tree.new alloc).pages, (Tree.new alloc).root, fun _ => none, none, none⟩

/-- Keys are inserted that the index does not have, and on the way each page has room or entries
enough to be divided. -/
def InsertOk (map : κ → Option v) (t : Tree κ v) : Write κ v → Prop
  | .insert key _ => (map key).isNone ∧ t.Divides true key
  | _ => True

/-- In addition, operations that are not in place and searches do not overlap. -/
def Ok (s : State κ v) : Label κ v → Prop
  | .enter op =>
    InsertOk s.map ⟨s.pages, s.root⟩ op ∧
      (op.inPlace ⟨s.pages, s.root⟩ = true ∨ ∀ r ∈ s.reader, r.searching = false)
  | .start _ => ∀ w ∈ s.writer, w.inPlace = true
  | _ => True

instance (map : κ → Option v) (t : Tree κ v) : ∀ op, Decidable (InsertOk map t op)
  | .insert _ _ => inferInstanceAs (Decidable (_ ∧ _))
  | .delete _ => isTrue trivial
  | .update _ _ => isTrue trivial

instance (s : State κ v) (label : Label κ v) : Decidable (Ok s label) := by
  unfold Ok
  split <;> infer_instance

end Step

/-! ### The way of a key -/

section Way

variable [LinearOrder κ] {P P' : Pages κ v} {root h : ℕ}

/-- A search for the key comes to the page. -/
inductive OnWay (P : Pages κ v) (key : κ) (root : ℕ) : ℕ → Prop where
  | root : OnWay P key root root
  | child {pid : ℕ} {n : InternalNode κ} : OnWay P key root pid → P.get pid = some (.internal n) →
      OnWay P key root (n.findChildPageIdBinary key)

/-- The way stays as long as internal nodes do. -/
theorem OnWay.congr (h : OnWay P key root pid)
    (hsame : ∀ p n, P.get p = some (.internal n) → P'.get p = some (.internal n)) :
    OnWay P' key root pid := by
  induction h with
  | root => exact .root
  | child _ hget ih => exact .child ih (hsame _ _ hget)

/-- On the way of a key is the tree that has it. -/
theorem OnWay.subtree [OrderBot κ] (hway : OnWay P key root pid)
    (t : Subtree true P h root ⊥ ⊤ m o) : ∃ h' lo hi m' o', Subtree true P h' pid lo hi m' o' ∧
    lo ≤ key ∧
      (key : WithTop κ) < hi ∧ ∀ value, (key, value) ∈ m' ↔ (key, value) ∈ m := by
  induction hway with
  | root => exact ⟨h, ⊥, ⊤, m, o, t, bot_le, WithTop.coe_lt_top key, fun _ => Iff.rfl⟩
  | @child pid n _ hget ih =>
    obtain ⟨h', lo, hi, m', o', t', hlo, hhi, hmem⟩ := ih
    cases h' with
    | zero =>
      obtain ⟨l, hleaf, -⟩ := t'
      cases hget.symm.trans hleaf
    | succ h' =>
      obtain ⟨n', -, o'', hget', hf, -⟩ := t'
      obtain rfl : n = n' := by simpa [hget] using hget'
      obtain ⟨pre, post, m₁, m₂, o₁, o₂, hfocus, rfl, -⟩ := exists_focus hf hlo hhi
      rw [hfocus.childPage]
      refine ⟨h', _, _, m₁, o₁, hfocus.child, hfocus.low, hfocus.high, fun value => ?_⟩
      rw [← hmem, Multiset.mem_add]
      exact ⟨.inl, fun h => h.resolve_right fun h => hfocus.others rfl _ h rfl⟩

end Way

/-! ### Operations -/

/-- A key that the map does not have is not in the tree. -/
theorem notMem_of_agrees {map : κ → Option v}
    (hmap : ∀ key value, map key = some value ↔ (key, value) ∈ m) (hnone : map key = none) :
    key ∉ m.map Prod.fst := by
  intro hkey
  obtain ⟨⟨k, value⟩, he, rfl⟩ := Multiset.mem_map.mp hkey
  rw [(hmap k value).mpr he] at hnone
  cases hnone

section Perform

open UniqueIndex

variable [LinearOrder κ] [OrderBot κ] [DecidableEq v] {alloc : Allocator κ v} {t : Tree κ v}
  {map : κ → Option v} {op : Write κ v}

/-- An operation on the tree is one on the map. -/
theorem agrees_perform (alloc : Allocator κ v) (h : Agrees ⟨t, map, true⟩)
    (hok : Readers.InsertOk map t op) : Agrees ⟨(op.perform alloc t).2, op.apply map, true⟩ := by
  obtain ⟨m, ht, hmap⟩ := h.holds
  obtain ⟨o, hs, -⟩ : ∃ o, t.Stores true m o ∧ _ := ht.stores
  cases op with
  | insert key value =>
    have hstep := step_insert (s := ⟨t, map, true⟩) alloc value (Option.isNone_iff_eq_none.mp hok.1)
    exact ⟨rfl, (agrees_step h (show UniqueIndex.InsertOk _ (.insert key value) from hok.2) hstep).holds⟩
  | delete key =>
    cases hkey : map key with
    | some value =>
      have hstep := step_delete (s := ⟨t, map, true⟩) alloc hkey
      exact ⟨rfl, (agrees_step h (show UniqueIndex.InsertOk _ (.delete key) from trivial) hstep).holds⟩
    | none =>
      have hdel := hs.delete_of_notMem (notMem_of_agrees hmap hkey)
      rwa [Write.perform, hdel, Write.apply, Function.update_eq_self_iff.mpr hkey.symm]
  | update key value =>
    cases hkey : map key with
    | some value' =>
      have hstep := step_update (s := ⟨t, map, true⟩) alloc value hkey
      rw [Write.apply, if_pos (by rw [hkey]; rfl)]
      exact ⟨rfl, (agrees_step h
        (show UniqueIndex.InsertOk _ (.update key value) from trivial) hstep).holds⟩
    | none =>
      have hupd := hs.update_of_notMem value (notMem_of_agrees hmap hkey)
      rwa [Write.perform, hupd, Write.apply, if_neg (by rw [hkey]; exact Bool.false_ne_true)]

omit [DecidableEq v] in
/-- An operation adds page writes to those before. -/
theorem later_perform (alloc : Allocator κ v) (h : Agrees ⟨t, map, true⟩)
    (hok : Readers.InsertOk map t op) : t.pages.log <:+ (op.perform alloc t).2.pages.log := by
  obtain ⟨m, ht, hmap⟩ := h.holds
  obtain ⟨o, hs, -⟩ : ∃ o, t.Stores true m o ∧ _ := ht.stores
  cases op with
  | insert key value =>
    have habsent := notMem_of_agrees hmap (Option.isNone_iff_eq_none.mp hok.1)
    obtain ⟨t', o', hins, -, hrw⟩ := hs.insert alloc value (fun _ => habsent) hok.2
    rw [Write.perform, hins]
    exact hrw.later
  | delete key =>
    by_cases hkey : key ∈ m.map Prod.fst
    · obtain ⟨t', o', value, m', hdel, -, -, hrw⟩ := hs.delete hkey
      rw [Write.perform, hdel]
      exact hrw.later
    · rw [Write.perform, hs.delete_of_notMem hkey]
  | update key value =>
    rcases hs.update key value with ⟨t', m₁, m₂, hupd, -, -, -, -, hrw⟩ | ⟨herr, -⟩
    · rw [Write.perform, hupd]
      exact hrw.later
    · rw [Write.perform, herr]

end Perform

/-! ### The invariant -/

section Invariant

open UniqueIndex

variable [LinearOrder κ] [OrderBot κ] {alloc : Allocator κ v} {s s' : State κ v} {r : Reader κ v}

/-- Between operations the pages are a tree that has what the map has; during one, they will be. An
operation in place leaves a tree at every moment. A search is on the way of its key, and beside
operations in place only. -/
structure Inv (s : State κ v) : Prop where
  settled : s.writer = none → Agrees ⟨⟨s.pages, s.root⟩, s.map, true⟩
  pending : ∀ w, s.writer = some w → Agrees ⟨⟨s.pages.pushAll w.rest, w.root⟩, w.op.apply s.map, true⟩
  inPlace : ∀ w, s.writer = some w → w.inPlace = true → Touches s.pages w.rest ∧ w.root = s.root ∧
    ∃ map, Agrees ⟨⟨s.pages, s.root⟩, map, true⟩ ∧ ∀ key ≠ w.op.key, map key = s.map key
  searching : ∀ r pid, s.reader = some r → r.place = .at pid → OnWay s.pages r.key s.root pid ∧
    (∀ w, s.writer = some w → w.inPlace = true) ∧
    (r.stable = true → r.expect = s.map r.key ∧ ∀ w, s.writer = some w → r.key ≠ w.op.key)
  done : ∀ r x, s.reader = some r → r.place = .done x → r.stable = true → x = .ok r.expect

theorem inv_init (alloc : Allocator κ v) : Inv (init alloc) where
  settled _ := agrees_init alloc
  pending := nofun
  inPlace := nofun
  searching := nofun
  done := nofun

variable (h : Inv s)

include h

/-- Beside operations in place there is always a tree. -/
theorem Inv.current (hplace : ∀ w, s.writer = some w → w.inPlace = true) :
    ∃ map, Agrees ⟨⟨s.pages, s.root⟩, map, true⟩ ∧
      ∀ key, (∀ w, s.writer = some w → key ≠ w.op.key) → map key = s.map key := by
  cases hw : s.writer with
  | none => exact ⟨s.map, h.settled hw, fun _ _ => rfl⟩
  | some w =>
    obtain ⟨-, -, map, hmap, hsame⟩ := h.inPlace w hw (hplace w hw)
    exact ⟨map, hmap, fun key hkey => hsame key (hkey w rfl)⟩

/-- **What a search reads**: on the way it goes on, and at the leaf it finds what it should. -/
theorem Inv.read (hr : s.reader = some r) (hat : r.place = .at pid) :
    ∃ page, s.pages.get pid = some page ∧ (∀ q, r.read page = .at q → OnWay s.pages r.key s.root q) ∧
      ∀ x, r.read page = .done x → r.stable = true → x = .ok r.expect := by
  obtain ⟨hway, hplace, hstable⟩ := h.searching r pid hr hat
  obtain ⟨map, hmap, hsame⟩ := h.current hplace
  obtain ⟨m, ht, hmem⟩ := hmap.holds
  obtain ⟨o, ⟨height, hs⟩, -⟩ := ht.stores
  obtain ⟨h', lo, hi, m', o', t', hlo, hhi, hmem'⟩ := hway.subtree hs
  cases h' with
  | zero =>
    obtain ⟨l, hget, hl, rfl, -⟩ := t'
    refine ⟨_, hget, nofun, fun x hx hst => ?_⟩
    obtain ⟨hexpect, hkey⟩ := hstable hst
    cases hx
    rw [hexpect, ← hsame _ hkey]
    congr 1
    ext value
    rw [l.find_spec hl.ascend, ← Multiset.mem_coe, hmem', ← hmem]
  | succ h' =>
    obtain ⟨n, -, o'', hget, -⟩ := t'
    refine ⟨_, hget, fun q hq => ?_, nofun⟩
    cases hq
    exact hway.child hget

theorem inv_write (hstep : step alloc s .write = some s') : Inv s' := by
  obtain ⟨op, x, rest, root, inPlace, hw, rfl⟩ : ∃ op x rest root inPlace,
    s.writer = some ⟨op, x :: rest, root, inPlace⟩ ∧
      { s with pages := s.pages.push x, writer := some ⟨op, rest, root, inPlace⟩ } = s' := by
    simp only [step] at hstep
    split at hstep
    case h_1 op x rest root inPlace hw => exact ⟨op, x, rest, root, inPlace, hw, Option.some.inj hstep⟩
    case h_2 => cases hstep
  have hpending := h.pending _ hw
  constructor
  case settled => exact nofun
  case pending =>
    rintro w ⟨⟩
    exact hpending
  case inPlace =>
    rintro w ⟨⟩ hplace
    obtain ⟨htouch, hroot, -⟩ := h.inPlace _ hw hplace
    -- it was the only write
    obtain hnil | ⟨q, l, l', hws, -⟩ := htouch
    · cases hnil
    · obtain ⟨rfl, rfl⟩ := List.cons.inj hws
      refine ⟨.inl rfl, hroot, op.apply s.map, ?_, fun key hkey => Write.apply_of_ne hkey⟩
      rwa [← hroot]
  case searching =>
    intro r pid hr hat
    obtain ⟨hway, hplace, hstable⟩ := h.searching r pid hr hat
    have hin := hplace _ hw
    obtain ⟨htouch, -⟩ := h.inPlace _ hw hin
    refine ⟨?_, ?_, fun hst => ⟨(hstable hst).1, ?_⟩⟩
    · obtain hnil | ⟨q, l, l', hws, hleaf⟩ := id htouch
      · cases hnil
      · obtain ⟨rfl, rfl⟩ := List.cons.inj hws
        exact hway.congr fun p n hget => htouch.internal hget
    · rintro w ⟨⟩
      exact hin
    · have hne := (hstable hst).2 _ hw
      rintro w ⟨⟩
      exact hne
  case done => exact h.done

theorem inv_publish (hstep : step alloc s .publish = some s') : Inv s' := by
  obtain ⟨op, root, inPlace, hw, rfl⟩ : ∃ op root inPlace, s.writer = some ⟨op, [], root, inPlace⟩ ∧
      { s with root := root, map := op.apply s.map, writer := none } = s' := by
    simp only [step] at hstep
    split at hstep
    case h_1 op root inPlace hw => exact ⟨op, root, inPlace, hw, Option.some.inj hstep⟩
    case h_2 => cases hstep
  constructor
  case settled => exact fun _ => h.pending _ hw
  case pending => exact nofun
  case inPlace => exact nofun
  case searching =>
    intro r pid hr hat
    obtain ⟨hway, hplace, hstable⟩ := h.searching r pid hr hat
    obtain ⟨-, hroot, -⟩ := h.inPlace _ hw (hplace _ hw)
    refine ⟨?_, nofun, fun hst => ⟨?_, nofun⟩⟩
    · rwa [show root = s.root from hroot]
    · obtain ⟨hexpect, hne⟩ := hstable hst
      rw [hexpect]
      exact (Write.apply_of_ne (hne _ hw)).symm
  case done => exact h.done

theorem inv_start (hok : Ok s (.start key)) (hstep : step alloc s (.start key) = some s') : Inv s' := by
  cases hstep
  constructor
  case settled => exact h.settled
  case pending => exact h.pending
  case inPlace => exact h.inPlace
  case searching =>
    rintro r pid ⟨⟩ ⟨⟩
    refine ⟨.root, hok, fun hst => ⟨rfl, fun w hw heq => ?_⟩⟩
    rw [show s.writer = some w from hw] at hst
    exact of_decide_eq_true hst heq.symm
  case done => rintro r x ⟨⟩ ⟨⟩

theorem inv_read {stale : Page κ v} (hstep : step alloc s (.read stale) = some s') : Inv s' := by
  obtain ⟨r, pid, hr, hat, rfl⟩ : ∃ r pid, s.reader = some r ∧ r.place = .at pid ∧
      { s with reader := some { r with place := r.read ((s.pages.get pid).getD stale) } } = s' := by
    simp only [step] at hstep
    split at hstep
    case h_1 key expect stable pid hr => exact ⟨_, pid, hr, rfl, Option.some.inj hstep⟩
    case h_2 => cases hstep
  obtain ⟨page, hget, hnext, hdone⟩ := h.read hr hat
  obtain ⟨-, hplace, hstable⟩ := h.searching r pid hr hat
  rw [hget]
  constructor
  case settled => exact h.settled
  case pending => exact h.pending
  case inPlace => exact h.inPlace
  case searching =>
    rintro r' q ⟨⟩ hat'
    exact ⟨hnext q hat', hplace, hstable⟩
  case done =>
    rintro r' x ⟨⟩ hdone' hst
    exact hdone x hdone' hst

omit h

variable [DecidableEq v]

theorem inv_enter {op : Write κ v} (h : Inv s) (hok : Ok s (.enter op))
    (hstep : step alloc s (.enter op) = some s') : Inv s' := by
  obtain ⟨hnone, ⟨⟩⟩ := Option.ite_none_right_eq_some.mp hstep
  rw [Option.isNone_iff_eq_none] at hnone
  have hset := h.settled hnone
  have hagrees := agrees_perform alloc hset hok.1
  have hwrites := Pages.pushAll_newWrites (later_perform alloc hset hok.1)
  constructor
  case settled => exact nofun
  case pending =>
    rintro w ⟨⟩
    rwa [hwrites]
  case inPlace =>
    rintro w ⟨⟩ hplace
    obtain ⟨ws, hws, htouch⟩ := Write.perform_inPlace alloc hplace
    refine ⟨?_, congrArg Tree.root hws, s.map, hset, fun _ _ => rfl⟩
    rwa [hws, Pages.newWrites_pushAll]
  case searching =>
    intro r' pid hr' hat
    obtain ⟨r, hr, rfl⟩ := Option.map_eq_some_iff.mp hr'
    rw [Reader.beside_place] at hat
    obtain ⟨hway, -, hstable⟩ := h.searching r pid hr hat
    have hkey : (r.beside op.key).key = r.key := by
      rw [Reader.beside]
      split <;> rfl
    have hexpect : (r.beside op.key).expect = r.expect := by
      rw [Reader.beside]
      split <;> rfl
    rw [hkey, hexpect]
    refine ⟨hway, ?_, fun hst => ?_⟩
    · rintro w ⟨⟩
      refine hok.2.resolve_right fun hnot => ?_
      have := hnot r hr
      rw [Reader.searching, hat] at this
      cases this
    · obtain ⟨hst, hne⟩ := Reader.stable_of_beside hat hst
      refine ⟨(hstable hst).1, ?_⟩
      rintro w ⟨⟩
      exact hne
  case done =>
    intro r' x hr' hdone hst
    obtain ⟨r, hr, rfl⟩ := Option.map_eq_some_iff.mp hr'
    rw [Reader.beside_place] at hdone
    rw [Reader.beside_of_done op.key hdone] at hst ⊢
    exact h.done r x hr hdone hst

theorem inv_step {label : Label κ v} (h : Inv s) (hok : Ok s label)
    (hstep : step alloc s label = some s') : Inv s' := by
  cases label with
  | enter op => exact inv_enter h hok hstep
  | write => exact inv_write h hstep
  | publish => exact inv_publish h hstep
  | start key => exact inv_start h hok hstep
  | read stale => exact inv_read h hstep

/-! ### Searches -/

omit [DecidableEq v] in
theorem step_read (alloc : Allocator κ v) (stale : Page κ v) {page : Page κ v}
    (hr : s.reader = some r) (hat : r.place = .at pid) (hget : s.pages.get pid = some page) :
    step alloc s (.read stale) = some { s with reader := some { r with place := r.read page } } := by
  obtain ⟨key, expect, stable, place⟩ := r
  subst hat
  simp [step, hr, hget]

omit [DecidableEq v] in
/-- A search that reads on comes to an end: below it is a tree, and every page it reads is one level
down. -/
theorem Inv.finishes (alloc : Allocator κ v) (stale : Page κ v) {height : ℕ} {lo : κ}
    {hi : WithTop κ} (h : Inv s) (hr : s.reader = some r) (hat : r.place = .at pid)
    (hst : r.stable = true) (t : Subtree true s.pages height pid lo hi m o) (hlo : lo ≤ r.key)
    (hhi : (r.key : WithTop κ) < hi) :
    ∃ n s', run (step alloc) s (List.replicate n (.read stale)) = some s' ∧
      s'.reader = some { r with place := .done (.ok r.expect) } := by
  induction height generalizing s pid lo hi m o r with
  | zero =>
    obtain ⟨l, hget, -⟩ := t
    have hstep := step_read alloc stale hr hat hget
    have hdone := (inv_read h hstep).done _ (.ok (l.find r.key)) rfl rfl hst
    refine ⟨1, _, run_cons_eq_some.mpr ⟨_, hstep, rfl⟩, ?_⟩
    show some { r with place := .done (.ok (l.find r.key)) } = _
    rw [hdone]
  | succ height ih =>
    obtain ⟨n, -, o', hget, hf, -⟩ := t
    obtain ⟨pre, post, m₁, m₂, o₁, o₂, hfocus, -⟩ := exists_focus hf hlo hhi
    have hstep := step_read alloc stale hr hat hget
    have hat' : r.read (.internal n : Page κ v) = .at (lastKid n.leftmost pre) :=
      congrArg Place.at hfocus.childPage
    obtain ⟨k, s', hrun, hs'⟩ := ih (inv_read h hstep) rfl hat' hst hfocus.child hfocus.low hfocus.high
    exact ⟨k + 1, s', run_cons_eq_some.mpr ⟨_, hstep, hrun⟩, hs'⟩

end Invariant

/-- **Readers beside operations in place.** In every run in which operations that are not in place
and searches do not overlap, a search beside which no operation on its key runs returns what the
index has for the key; and it does return, if it reads on. -/
theorem search_finds_stable_key {alloc : Allocator PaddedKey RowId} {s : State PaddedKey RowId}
    {labels : List (Label PaddedKey RowId)} {r : Reader PaddedKey RowId}
    (hok : Guarded Ok (step alloc) (init alloc) labels)
    (hrun : run (step alloc) (init alloc) labels = some s)
    (hr : s.reader = some r) (hst : r.stable = true) :
    (∀ x, r.place = .done x → x = .ok r.expect) ∧
      ∀ pid stale, r.place = .at pid → ∃ n s',
      run (step alloc) s (List.replicate n (.read stale)) = some s' ∧
        s'.reader = some { r with place := .done (.ok r.expect) } := by
  have h : Inv s := run_invariant (fun _ _ _ h hok hstep => inv_step h hok hstep)
    (inv_init alloc) hok hrun
  refine ⟨fun x hx => h.done r x hr hx hst, fun pid stale hat => ?_⟩
  obtain ⟨hway, hplace, -⟩ := h.searching r pid hr hat
  obtain ⟨map, hmap, -⟩ := h.current hplace
  obtain ⟨m, ht, -⟩ := hmap.holds
  obtain ⟨o, ⟨height, hs⟩, -⟩ := ht.stores
  obtain ⟨h', lo, hi, m', o', t', hlo, hhi, -⟩ := hway.subtree hs
  exact h.finishes alloc stale hr hat hst t' hlo hhi

/-- The rows that a search has found. -/
def Place.found {v : Type} : Place v → Option (Option v)
  | .done (.ok x) => some x
  | _ => none

theorem Place.eq_of_found {p : Place v} {x : Option v} (h : p.found = some x) : p = .done (.ok x) := by
  match p with
  | .at _ | .done (.error _) => cases h
  | .done (.ok y) => rw [Option.some.inj h]

/-- A key is inserted, and another one beside a search for the first. -/
def insertBeside : List (Label PaddedKey RowId) :=
  [.enter (.insert (.byte 1) ⟨0, 0⟩), .write, .publish, .start (.byte 1),
    .enter (.insert (.byte 2) ⟨0, 1⟩), .write, .read .raw]

theorem search_finds_stable_key_beside :
    ∃ s r, run (step (Allocator.next PaddedKey RowId))
      (init (Allocator.next PaddedKey RowId)) insertBeside = some s ∧
      s.reader = some r ∧ r.key = .byte 1 ∧ r.place = .done (.ok (some ⟨0, 0⟩)) := by
  obtain ⟨s, hs, r, hr, hkey, hst, hexpect, hfound⟩ :
      ∃ s, runChecked Ok (step (Allocator.next PaddedKey RowId))
        (init (Allocator.next PaddedKey RowId)) insertBeside = some s ∧
        ∃ r, s.reader = some r ∧ r.key = .byte 1 ∧ r.stable ∧ r.expect = some ⟨0, 0⟩ ∧
        r.place.found.isSome := by
    decide +kernel
  obtain ⟨x, hx⟩ := Option.isSome_iff_exists.mp hfound
  obtain ⟨hok, hs⟩ := of_runChecked hs
  have hdone := (search_finds_stable_key hok hs hr hst).1 _ (Place.eq_of_found hx)
  exact ⟨s, r, hs, hr, hkey, by rw [Place.eq_of_found hx, hdone, hexpect]⟩

/-- An operation that runs beside nothing. -/
def alone (op : Write PaddedKey RowId) : List (Label PaddedKey RowId) := [.enter op, .write, .publish]

/-- Two keys are in a leaf whose bytes were used up by a third one, which has come and gone. A
search for the second key begins, and the third is inserted once more. The page of the leaf is cut
in half, and then the search reads it. -/
def divideBeside : List (Label PaddedKey RowId) :=
  alone (.insert (.byte 1) ⟨0, 1⟩) ++ alone (.insert (.byte 2) ⟨0, 2⟩) ++
    (List.replicate 104 (alone (.insert (.byte 3) ⟨0, 3⟩) ++ alone (.delete (.byte 3)))).flatten ++
    [.start (.byte 2), .enter (.insert (.byte 3) ⟨0, 3⟩), .write, .write, .read .raw]

/-- **A search misses a key** that is in the index all the while. -/
theorem search_misses_stable_key :
    ∃ s r, run (step (Allocator.next PaddedKey RowId))
      (init (Allocator.next PaddedKey RowId)) divideBeside = some s ∧
      s.reader = some r ∧ r.stable = true ∧ r.expect = some ⟨0, 2⟩ ∧ r.place = .done (.ok none) := by
  obtain ⟨s, hs, r, hr, hst, hexpect, hfound⟩ :
      ∃ s, run (step (Allocator.next PaddedKey RowId))
        (init (Allocator.next PaddedKey RowId)) divideBeside = some s ∧
        ∃ r, s.reader = some r ∧ r.stable ∧ r.expect = some ⟨0, 2⟩ ∧ r.place.found = some none := by
    decide +kernel
  exact ⟨s, r, hs, hr, hst, hexpect, Place.eq_of_found hfound⟩

end RTsql.Storage.BTree.Readers
