import RTsql.Transaction.VersionHeader
import Mathlib.Data.List.Nodup
import Mathlib.Data.List.Range
import Mathlib.Logic.Function.Basic

/-!
# The heap of a table

The data pages of a table form a chain. Every slot of a page holds a version
header and a tuple, and has a logical id that stays with it; slots are appended, to the
last page of the chain or to a new page behind it, so that the order in which a scan
meets the slots is the order in which they were written. On a page that has only ever
been appended to, the logical id of a slot is its position (`Dense`). Recovery, which
writes a slot under the id that the log names, and the removal of slots make pages where it
is not.
-/

namespace RTsql.Storage

open Function List RTsql.Transaction

universe u

variable {α : Type u} {rid : RowId} {v : VersionHeader} {page : ℕ}

/-- A slot of a data page. -/
structure Slot (α : Type u) where
  header : VersionHeader
  tuple : α

/-- The data pages of a table. -/
structure Heap (α : Type u) where
  /-- The page ids, in the order of the chain. -/
  chain : List ℕ
  /-- The slots of a page, each with its logical id. -/
  slots : ℕ → List (ℕ × Slot α)

namespace Heap

/-- The slot at a row id, `get_slot_by_logical_id`. -/
def slot? (h : Heap α) (rid : RowId) : Option (Slot α) :=
  ((h.slots rid.pageId).find? (·.1 = rid.slotId)).map Prod.snd

/-- `read_version_header`. -/
def header? (h : Heap α) (rid : RowId) : Option VersionHeader := (h.slot? rid).map Slot.header

/-- The row ids of a page. -/
def pageRids (h : Heap α) (page : ℕ) : List RowId := (h.slots page).map fun e => ⟨page, e.1⟩

/-- The row ids of the table, in the order of a scan. -/
def rids (h : Heap α) : List RowId := h.chain.flatMap h.pageRids

/-- `versions_created_by`. -/
def versionsCreatedBy (h : Heap α) (tx : ℕ) : List RowId :=
  h.rids.filter fun rid => (h.header? rid).any fun v => v.createTxId = tx

/-- The page of a slot, with the slot's position on it where its logical id belongs. -/
def position (h : Heap α) (rid : RowId) : RowId :=
  ⟨rid.pageId, (h.slots rid.pageId).findIdx (·.1 = rid.slotId)⟩

/-- `next_logical_id`: one more than the greatest id of the page, as long as no slot is removed. -/
def nextId (h : Heap α) (page : ℕ) : ℕ := (h.slots page).foldr (fun e n => max (e.1 + 1) n) 0

/-- The row id that `write_tuple_to_data_page` gives to the next slot on page `page`. -/
def nextRid (h : Heap α) (page : ℕ) : RowId := ⟨page, h.nextId page⟩

/-- `write_tuple_to_data_page`, with `page` the last page of the chain or a new one. -/
def append (h : Heap α) (page : ℕ) (s : Slot α) : Heap α :=
  { chain := if page ∈ h.chain then h.chain else h.chain ++ [page]
    slots := update h.slots page (h.slots page ++ [(h.nextId page, s)]) }

/-- The slot at a row id is overwritten. -/
def set (h : Heap α) (rid : RowId) (s : Slot α) : Heap α :=
  let slots := (h.slots rid.pageId).map fun e => (e.1, if e.1 = rid.slotId then s else e.2)
  { h with slots := update h.slots rid.pageId slots }

/-- The header at a row id is overwritten. -/
def setHeader (h : Heap α) (rid : RowId) (v : VersionHeader) : Heap α :=
  match h.slot? rid with
  | some s => h.set rid { s with header := v }
  | none => h

/-- `page` is where the next slot goes: the last page of the chain, or a page not in it. -/
def Writable (h : Heap α) (page : ℕ) : Prop := h.chain.getLast? = some page ∨ page ∉ h.chain

instance (h : Heap α) (page : ℕ) : Decidable (h.Writable page) := inferInstanceAs (Decidable (_ ∨ _))

/-- A page id is in the chain once, a logical id on its page once, and the slots are on pages of the
chain. -/
structure WF (h : Heap α) : Prop where
  /-- No page is in the chain twice. -/
  nodup : h.chain.Nodup
  /-- Only pages of the chain have slots. -/
  outside : ∀ page, page ∉ h.chain → h.slots page = []
  /-- No two slots of a page have one logical id. -/
  ids : ∀ page, ((h.slots page).map Prod.fst).Nodup

/-- The logical ids of a page are the positions. -/
def Dense (h : Heap α) : Prop := ∀ page, (h.slots page).map Prod.fst = List.range (h.slots page).length

variable {h : Heap α}

theorem header?_eq_some : h.header? rid = some v ↔ ∃ s, h.slot? rid = some s ∧ s.header = v := by
  simp [header?]

theorem mem_of_slot? {s : Slot α} (hs : h.slot? rid = some s) :
    (rid.slotId, s) ∈ h.slots rid.pageId := by
  obtain ⟨⟨i, t⟩, hfind, rfl⟩ := Option.map_eq_some_iff.mp hs
  have hi : i = rid.slotId := by simpa using find?_some hfind
  exact hi ▸ mem_of_find?_eq_some hfind

theorem slot?_eq_some (hwf : h.WF) {s : Slot α} : h.slot? rid = some s ↔
    (rid.slotId, s) ∈ h.slots rid.pageId := by
  refine ⟨mem_of_slot?, fun hmem => ?_⟩
  cases hfind : (h.slots rid.pageId).find? (·.1 = rid.slotId) with
  | none => exact absurd (decide_eq_true rfl) (find?_eq_none.mp hfind _ hmem)
  | some e =>
    have hi : e.1 = rid.slotId := by simpa using find?_some hfind
    have heq := inj_on_of_nodup_map (hwf.ids rid.pageId) (mem_of_find?_eq_some hfind) hmem hi
    rw [slot?, hfind, heq]
    rfl

theorem mem_pageRids : rid ∈ h.pageRids page ↔ rid.pageId = page ∧ ∃ s, h.slot? rid = some s := by
  obtain ⟨p, i⟩ := rid
  simp only [pageRids, mem_map, RowId.mk.injEq]
  constructor
  · rintro ⟨⟨j, s⟩, hmem, rfl, rfl⟩
    refine ⟨rfl, Option.ne_none_iff_exists'.mp fun hnone => ?_⟩
    exact absurd (decide_eq_true rfl) (find?_eq_none.mp (Option.map_eq_none_iff.mp hnone) _ hmem)
  · rintro ⟨rfl, s, hs⟩
    exact ⟨_, mem_of_slot? hs, rfl, rfl⟩

theorem mem_rids (hwf : h.WF) : rid ∈ h.rids ↔ ∃ s, h.slot? rid = some s := by
  simp only [rids, mem_flatMap, mem_pageRids]
  constructor
  · rintro ⟨page, -, rfl, hs⟩
    exact hs
  · rintro ⟨s, hs⟩
    refine ⟨rid.pageId, ?_, rfl, s, hs⟩
    by_contra hout
    have hmem := mem_of_slot? hs
    rw [hwf.outside _ hout] at hmem
    cases hmem

theorem mem_rids_of_header (hwf : h.WF) (hv : h.header? rid = some v) : rid ∈ h.rids := by
  obtain ⟨s, hs, -⟩ := header?_eq_some.mp hv
  exact (mem_rids hwf).mpr ⟨s, hs⟩

theorem mem_versionsCreatedBy (hwf : h.WF) {tx : ℕ} :
    rid ∈ h.versionsCreatedBy tx ↔ ∃ v, h.header? rid = some v ∧ v.createTxId = tx := by
  simp only [versionsCreatedBy, mem_filter, Option.any_eq_true, decide_eq_true_eq]
  exact ⟨And.right, fun ⟨v, hv, hc⟩ => ⟨mem_rids_of_header hwf hv, v, hv, hc⟩⟩

theorem nodup_pageRids (hwf : h.WF) (page : ℕ) : (h.pageRids page).Nodup := by
  have hmap : h.pageRids page = ((h.slots page).map Prod.fst).map (RowId.mk page) := (map_map ..).symm
  rw [hmap]
  exact (hwf.ids page).map fun _ _ hij => (RowId.mk.inj hij).2

/-- Where logical ids are positions, a slot is found at its position. -/
theorem position_eq (hd : h.Dense) (hs : ∃ s, h.slot? rid = some s) : h.position rid = rid := by
  obtain ⟨page, i⟩ := rid
  obtain ⟨s, hs⟩ := hs
  have hmem : i ∈ (h.slots page).map Prod.fst := mem_map.mpr ⟨_, mem_of_slot? hs, rfl⟩
  rw [hd page] at hmem
  have hidx : (h.slots page).findIdx (·.1 = i) = ((h.slots page).map Prod.fst).findIdx (· = i) := by
    rw [findIdx_map]
    rfl
  rw [position, RowId.mk.injEq, hidx, hd page]
  refine ⟨rfl, (findIdx_eq (by rw [length_range]; exact mem_range.mp hmem)).mpr
    ⟨by simp, fun j hj => ?_⟩⟩
  simpa using Nat.ne_of_lt hj

theorem nodup_rids (hwf : h.WF) : h.rids.Nodup := by
  refine nodup_flatMap.mpr ⟨fun page _ => nodup_pageRids hwf page, ?_⟩
  refine hwf.nodup.imp fun hne => ?_
  intro rid hr hr'
  exact hne ((mem_pageRids.mp hr).1.symm.trans (mem_pageRids.mp hr').1)

/-! ### Writing -/

theorem foldr_max_range (n : ℕ) : (List.range n).foldr (fun i k => max (i + 1) k) 0 = n := by
  suffices h : ∀ k, (List.range n).foldr (fun i k => max (i + 1) k) k = max n k from (h 0).trans
    (Nat.max_zero n)
  induction n with
  | zero => simp
  | succ n ih =>
    intro k
    rw [range_succ, foldr_append, ih]
    simp only [foldr_cons, foldr_nil]
    omega

theorem lt_nextId {e : ℕ × Slot α} (he : e ∈ h.slots page) : e.1 < h.nextId page := by
  rw [nextId]
  generalize h.slots page = l at he
  induction l with
  | nil => cases he
  | cons d l ih =>
    rw [foldr_cons]
    rcases mem_cons.mp he with rfl | he
    · exact Nat.le_max_left ..
    · exact Nat.lt_of_lt_of_le (ih he) (Nat.le_max_right ..)

theorem slot?_nextRid (h : Heap α) (page : ℕ) : h.slot? (h.nextRid page) = none := by
  rw [Option.eq_none_iff_forall_ne_some]
  intro s hs
  exact Nat.lt_irrefl _ (lt_nextId (mem_of_slot? hs))

theorem slots_append_self (h : Heap α) (page : ℕ) (s : Slot α) :
    (h.append page s).slots page = h.slots page ++ [(h.nextId page, s)] := update_self ..

theorem slots_append_of_ne (h : Heap α) {p : ℕ} (hp : p ≠ page) (s : Slot α) :
    (h.append page s).slots p = h.slots p :=
  update_of_ne hp ..

theorem slot?_append (h : Heap α) (page : ℕ) (s : Slot α) (rid : RowId) :
    (h.append page s).slot? rid = if rid = h.nextRid page then some s else h.slot? rid := by
  obtain ⟨p, i⟩ := rid
  split
  case isTrue hr =>
    obtain ⟨rfl, rfl⟩ := RowId.mk.inj hr
    have hnone : (h.slots p).find? (·.1 = h.nextId p) = none :=
      Option.map_eq_none_iff.mp (h.slot?_nextRid p)
    rw [slot?, slots_append_self, find?_append, hnone, Option.none_or, find?_cons_of_pos (by simp)]
    rfl
  case isFalse hr =>
    obtain rfl | hp := eq_or_ne p page
    · have hi : ¬ h.nextId p = i := fun hc => hr (by rw [← hc]; rfl)
      have hlast : [(h.nextId p, s)].find? (·.1 = i) = none := by simp [hi]
      simp only [slot?, slots_append_self, find?_append, hlast, Option.or_none]
    · simp only [slot?, slots_append_of_ne h hp]

theorem header?_append (h : Heap α) (page : ℕ) (s : Slot α) (rid : RowId) :
    (h.append page s).header? rid = if rid = h.nextRid page then some s.header else h.header? rid := by
  simp only [header?, slot?_append]
  split <;> rfl

theorem header?_nextRid (h : Heap α) (page : ℕ) : h.header? (h.nextRid page) = none := by
  rw [header?, slot?_nextRid]
  rfl

theorem slot?_set (h : Heap α) {s' : Slot α} (hs : h.slot? rid = some s') (s : Slot α)
    (r : RowId) : (h.set rid s).slot? r = if r = rid then some s else h.slot? r := by
  obtain ⟨p, i⟩ := rid
  obtain ⟨q, j⟩ := r
  obtain rfl | hq := eq_or_ne q p
  · have hslot : (h.set ⟨q, i⟩ s).slot? ⟨q, j⟩ = (h.slot? ⟨q, j⟩).map fun t =>
      if j = i then s else t := by
      simp only [slot?, set, update_self, find?_map, Option.map_map]
      refine Option.map_congr fun e he => ?_
      have hi : e.1 = j := by simpa using find?_some he
      simp only [Function.comp_apply, hi]
    rw [hslot]
    by_cases hj : j = i
    · rw [hj, hs, Option.map_some, if_pos rfl, if_pos rfl]
    · simp only [if_neg hj, if_neg fun hc : (⟨q, j⟩ : RowId) = ⟨q, i⟩ => hj (RowId.mk.inj hc).2,
        Option.map_id']
  · rw [if_neg fun hc => hq (RowId.mk.inj hc).1]
    simp only [slot?, set, update_of_ne hq]

theorem header?_setHeader (h : Heap α) {v' : VersionHeader} (hv : h.header? rid = some v')
    (v : VersionHeader) (r : RowId) :
    (h.setHeader rid v).header? r = if r = rid then some v else h.header? r := by
  obtain ⟨s, hs, -⟩ := header?_eq_some.mp hv
  rw [setHeader, hs]
  simp only [header?, slot?_set h hs]
  split <;> rfl

theorem slot?_setHeader (h : Heap α) (rid : RowId) (v : VersionHeader) (r : RowId) :
    (h.setHeader rid v).slot? r = if r = rid then (h.slot? rid).map
      (fun s => { s with header := v }) else h.slot? r := by
  cases hs : h.slot? rid with
  | none =>
    have hset : h.setHeader rid v = h := by rw [setHeader, hs]
    rw [hset]
    split
    case isTrue hr => rw [hr, hs, Option.map_none]
    case isFalse => rfl
  | some s =>
    have hset : h.setHeader rid v = h.set rid { s with header := v } := by rw [setHeader, hs]
    rw [hset, slot?_set h hs, Option.map_some]

theorem mem_chain_append (h : Heap α) (s : Slot α) {p : ℕ} : p ∈ (h.append page s).chain ↔
    p ∈ h.chain ∨ p = page := by
  simp only [append]
  split
  case isTrue hin => exact ⟨.inl, fun hp => hp.elim id fun hc => hc ▸ hin⟩
  case isFalse => simp

theorem WF.append (hwf : h.WF) (page : ℕ) (s : Slot α) : (h.append page s).WF := by
  refine ⟨?_, fun p hp => ?_, fun p => ?_⟩
  · simp only [Heap.append]
    split
    case isTrue => exact hwf.nodup
    case isFalse hout =>
      refine nodup_append.mpr ⟨hwf.nodup, nodup_singleton _, ?_⟩
      intro p hp q hq hpq
      rw [hpq, mem_singleton.mp hq] at hp
      exact hout hp
  · rw [mem_chain_append, not_or] at hp
    rw [slots_append_of_ne h hp.2, hwf.outside p hp.1]
  · obtain rfl | hp := eq_or_ne p page
    · rw [slots_append_self, map_append, nodup_append]
      refine ⟨hwf.ids p, nodup_singleton _, ?_⟩
      rintro i hi j hj rfl
      obtain ⟨e, he, rfl⟩ := mem_map.mp hi
      exact absurd (lt_nextId he) (by rw [mem_singleton.mp hj]; exact Nat.lt_irrefl _)
    · rw [slots_append_of_ne h hp]
      exact hwf.ids p

/-- Overwriting a slot leaves the ids of every page. -/
theorem map_fst_set (h : Heap α) (rid : RowId) (s : Slot α) (page : ℕ) :
    ((h.set rid s).slots page).map Prod.fst = (h.slots page).map Prod.fst := by
  simp only [set]
  obtain rfl | hp := eq_or_ne page rid.pageId
  · rw [update_self, map_map]
    rfl
  · rw [update_of_ne hp]

theorem WF.setHeader (hwf : h.WF) (rid : RowId) (v : VersionHeader) : (h.setHeader rid v).WF := by
  rw [Heap.setHeader]
  split
  case h_1 s hs =>
    refine ⟨hwf.nodup, fun p hp => ?_, fun p => by rw [map_fst_set]; exact hwf.ids p⟩
    rw [← map_eq_nil_iff (f := Prod.fst), map_fst_set, hwf.outside p hp, map_nil]
  case h_2 => exact hwf

theorem Dense.append (hd : h.Dense) (page : ℕ) (s : Slot α) : (h.append page s).Dense := by
  intro p
  obtain rfl | hp := eq_or_ne p page
  · have hnext : h.nextId p = (h.slots p).length := by
      have hfold : h.nextId p = ((h.slots p).map Prod.fst).foldr (fun i n => max (i + 1) n) 0 := by
        rw [nextId, foldr_map]
      rw [hfold, hd p, foldr_max_range]
    rw [slots_append_self, map_append, hd p, length_append, length_singleton, range_succ, hnext]
    rfl
  · rw [slots_append_of_ne h hp, hd p]

theorem Dense.setHeader (hd : h.Dense) (rid : RowId) (v : VersionHeader) :
    (h.setHeader rid v).Dense := by
  rw [Heap.setHeader]
  split
  case h_1 s hs =>
    intro page
    have hlength := congrArg length (map_fst_set h rid { s with header := v } page)
    rw [length_map, length_map] at hlength
    rw [map_fst_set, hd page, hlength]
  case h_2 => exact hd

theorem rids_append (hwf : h.WF) (hpage : h.Writable page) (s : Slot α) :
    (h.append page s).rids = h.rids ++ [h.nextRid page] := by
  -- the pages before the last one are unchanged
  have hother : ∀ pages : List ℕ, page ∉ pages →
    pages.flatMap (h.append page s).pageRids = pages.flatMap h.pageRids := by
    intro pages hpages
    refine flatMap_congr fun p hp => ?_
    have hne : p ≠ page := fun hc => hpages (hc ▸ hp)
    rw [pageRids, slots_append_of_ne h hne, pageRids]
  have hlast : (h.append page s).pageRids page = h.pageRids page ++ [h.nextRid page] := by
    rw [pageRids, slots_append_self, map_append]
    rfl
  by_cases hin : page ∈ h.chain
  · obtain ⟨init, hinit⟩ := getLast?_eq_some_iff.mp (hpage.resolve_right fun hout => hout hin)
    have hnot : page ∉ init := by
      have hnd := hwf.nodup
      rw [hinit] at hnd
      exact fun hc => (nodup_append.mp hnd).2.2 page hc page (mem_singleton.mpr rfl) rfl
    have hchain : (h.append page s).chain = init ++ [page] := by
      rw [← hinit]
      exact if_pos hin
    rw [rids, hchain, flatMap_append, hother init hnot, rids, hinit]
    simp [hlast]
  · have hchain : (h.append page s).chain = h.chain ++ [page] := by simp only [append, if_neg hin]
    have hempty : h.pageRids page = [] := by simp [pageRids, hwf.outside page hin]
    rw [rids, hchain, flatMap_append, hother h.chain hin, rids]
    simp [hlast, hempty]

theorem rids_setHeader (h : Heap α) (rid : RowId) (v : VersionHeader) :
    (h.setHeader rid v).rids = h.rids := by
  rw [setHeader]
  split
  case h_1 s hs =>
    refine flatMap_congr fun page _ => ?_
    have hids := congrArg (List.map (RowId.mk page)) (h.map_fst_set rid { s with header := v } page)
    rwa [map_map, map_map] at hids
  case h_2 => rfl

/-! ### Other tuples -/

section Map

universe v

variable {β : Type v} (f : α → β)

/-- The same versions with other tuples. -/
def map (h : Heap α) : Heap β where
  chain := h.chain
  slots page := (h.slots page).map fun e => (e.1, ⟨e.2.header, f e.2.tuple⟩)

variable {f}

theorem slot?_map (h : Heap α) (rid : RowId) : (h.map f).slot? rid = (h.slot? rid).map fun s =>
    ⟨s.header, f s.tuple⟩ := by
  simp only [slot?, map, find?_map, Option.map_map]
  rfl

@[simp] theorem header?_map (h : Heap α) (rid : RowId) : (h.map f).header? rid = h.header? rid := by
  rw [header?, slot?_map, Option.map_map]
  rfl

theorem nextId_map (h : Heap α) (page : ℕ) : (h.map f).nextId page = h.nextId page := by
  simp only [nextId, map, foldr_map]

@[simp] theorem nextRid_map (h : Heap α) (page : ℕ) : (h.map f).nextRid page = h.nextRid page := by
  rw [nextRid, nextId_map, nextRid]

@[simp] theorem rids_map (h : Heap α) : (h.map f).rids = h.rids :=
  flatMap_congr fun page _ => by simp [pageRids, map]

theorem append_map (h : Heap α) (page : ℕ) (s : Slot α) :
    (h.append page s).map f = (h.map f).append page ⟨s.header, f s.tuple⟩ := by
  refine mk.injEq .. |>.mpr ⟨rfl, ?_⟩
  funext p
  rw [nextId_map]
  obtain rfl | hp := eq_or_ne p page
  · simp [map, append]
  · simp [map, append, hp]

theorem setHeader_map (h : Heap α) (rid : RowId) (v : VersionHeader) :
    (h.setHeader rid v).map f = (h.map f).setHeader rid v := by
  rw [setHeader, setHeader, slot?_map]
  cases hs : h.slot? rid with
  | none => rfl
  | some s =>
    simp only [Option.map_some, map, set, mk.injEq, true_and]
    funext p
    obtain rfl | hp := eq_or_ne p rid.pageId
    · simp only [update_self, map_map]
      refine map_congr_left fun e _ => ?_
      simp only [Function.comp_apply]
      split <;> rfl
    · simp [hp]

theorem wf_map : (h.map f).WF ↔ h.WF := by
  have hids : ∀ page, ((h.map f).slots page).map Prod.fst = (h.slots page).map Prod.fst :=
    fun page => by simp [map]
  refine ⟨fun hwf => ⟨hwf.nodup, fun page hpage => ?_, fun page => hids page ▸ hwf.ids page⟩,
    fun hwf => ⟨hwf.nodup, fun page hpage => ?_, fun page => by rw [hids]; exact hwf.ids page⟩⟩
  · exact map_eq_nil_iff.mp (hwf.outside page hpage)
  · exact map_eq_nil_iff.mpr (hwf.outside page hpage)

end Map

/-! ### Tables of one page -/

/-- The versions of a table whose only page is page 0. -/
theorem header?_of_slots {l : List (ℕ × Slot α)}
    (hslots : ∀ page, h.slots page = if page = 0 then l else [])
    (hv : h.header? rid = some v) : ∃ i slot, rid = ⟨0, i⟩ ∧ (i, slot) ∈ l ∧ slot.header = v := by
  obtain ⟨page, i⟩ := rid
  obtain ⟨slot, hslot, hv⟩ := header?_eq_some.mp hv
  have hslot := mem_of_slot? hslot
  rw [hslots] at hslot
  by_cases hp : page = 0
  · rw [if_pos hp] at hslot
    exact ⟨i, slot, by rw [hp], hslot, hv⟩
  · rw [if_neg hp] at hslot
    cases hslot

variable {a b c : Slot α}

theorem header?_of_two (hslots : ∀ page, h.slots page = if page = 0 then [(0, a), (1, b)] else [])
    (hv : h.header? rid = some v) : rid = ⟨0, 0⟩ ∧ v = a.header ∨ rid = ⟨0, 1⟩ ∧ v = b.header := by
  obtain ⟨i, slot, rfl, hslot, rfl⟩ := header?_of_slots hslots hv
  simp only [mem_cons, Prod.mk.injEq, not_mem_nil, or_false] at hslot
  rcases hslot with ⟨rfl, rfl⟩ | ⟨rfl, rfl⟩ <;> simp

theorem header?_of_three
    (hslots : ∀ page, h.slots page = if page = 0 then [(0, a), (1, b), (2, c)] else [])
    (hv : h.header? rid = some v) :
    rid = ⟨0, 0⟩ ∧ v = a.header ∨ rid = ⟨0, 1⟩ ∧ v = b.header ∨ rid = ⟨0, 2⟩ ∧ v = c.header := by
  obtain ⟨i, slot, rfl, hslot, rfl⟩ := header?_of_slots hslots hv
  simp only [mem_cons, Prod.mk.injEq, not_mem_nil, or_false] at hslot
  rcases hslot with ⟨rfl, rfl⟩ | ⟨rfl, rfl⟩ | ⟨rfl, rfl⟩ <;> simp

/-- A page with slots that were appended. -/
def numbered (l : List (Slot α)) : List (ℕ × Slot α) := (List.range l.length).zip l

theorem map_fst_numbered (l : List (Slot α)) : (numbered l).map Prod.fst = List.range l.length :=
  map_fst_zip (by rw [length_range])

/-- A table of one page. -/
def onePage (l : List (Slot α)) : Heap α := ⟨[0], fun page => if page = 0 then numbered l else []⟩

theorem header?_onePage_nil (rid : RowId) : (onePage ([] : List (Slot α))).header? rid = none := by
  simp [header?, slot?, onePage, numbered]

theorem dense_onePage (l : List (Slot α)) : (onePage l).Dense := by
  intro page
  simp only [onePage]
  split
  · rw [map_fst_numbered, numbered, length_zip, length_range, Nat.min_self]
  · rfl

theorem wf_onePage (l : List (Slot α)) : (onePage l).WF := by
  refine ⟨nodup_singleton _, fun page hpage => if_neg ?_, fun page => ?_⟩
  · simpa [onePage] using hpage
  · rw [dense_onePage l page]
    exact nodup_range

end Heap

end RTsql.Storage
