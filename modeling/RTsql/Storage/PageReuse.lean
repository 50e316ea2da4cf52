import RTsql.Storage.FreePages

/-!
# When a freed page is reused

`flush_all` passes over a page that is being written by somebody else, so a checkpoint may succeed
while the last content of an anchor is not in the file (`reuses_page_before_anchor`). With the
condition `Ok` a page is allocated again only when all its anchors were written after the completion
(`reuses_page_after_anchors`).

The invariant says for each release that the anchors which are due are dirty or being written, and
that a checkpoint that covers the release has still to visit or to write them, unless somebody else
has tried (`Flush.Covers`). In the last case the anchor is among the failed pages, or it is still
being evicted. -/

namespace RTsql.Storage.FreePages

open List RTsql.Library List.Perm
open Finset (erase_subset mem_erase_of_ne_of_mem mem_insert mem_insert_of_mem mem_insert_self
  mem_of_mem_erase subset_insert)

/-! ### The pool keeps what is not written -/

/-- The last content of the page is in the pool and will be written. -/
def Pool.Keeps (pool : Pool) (p : ℕ) : Prop := p ∈ pool.dirty ∨ p ∈ pool.busy

/-- Only pages with a frame are dirty or being written. -/
structure Pool.Valid (pool : Pool) : Prop where
  dirty : pool.dirty ⊆ pool.frames
  busy : pool.busy ⊆ pool.frames

variable {pool : Pool} {p a : ℕ} {claimed : List ℕ} {success clean checkpoint : Bool} {e : Eviction}

theorem Pool.Valid.modify (h : pool.Valid) : (pool.modify p).Valid :=
  ⟨Finset.insert_subset_insert p h.dirty, h.busy.trans (subset_insert p _)⟩

theorem Pool.Valid.remove (h : pool.Valid) : (pool.remove p).Valid :=
  ⟨Finset.erase_subset_erase p h.dirty, Finset.erase_subset_erase p h.busy⟩

theorem Pool.Valid.claim (h : pool.Valid) (hp : pool.Claimable p) : (pool.claim p).Valid :=
  ⟨(erase_subset p _).trans h.dirty, Finset.insert_subset (h.dirty hp.1) h.busy⟩

theorem Pool.Valid.finish (h : pool.Valid) : (pool.finish p success).Valid := by
  unfold Pool.finish
  split
  case isTrue hp =>
    refine ⟨?_, (erase_subset p _).trans h.busy⟩
    cases success
    · exact Finset.insert_subset hp h.dirty
    · exact h.dirty
  case isFalse => exact h

theorem Pool.Valid.restore (h : pool.Valid) : (pool.restore claimed).Valid := by
  induction claimed generalizing pool with
  | nil => exact h
  | cons p claimed ih => exact ih h.finish

theorem Pool.Valid.leave (h : pool.Valid) :
    (e.leave success clean pool).Valid := by
  unfold Eviction.leave
  split
  · dsimp only
    split
    · exact h.finish.remove
    · exact h.finish
  · split
    · exact h.remove
    · exact h

theorem Pool.Keeps.modify (h : pool.Keeps a) : (pool.modify p).Keeps a :=
  h.imp_left (mem_insert_of_mem ·)

theorem Pool.Keeps.remove (h : pool.Keeps a) (hne : a ≠ p) : (pool.remove p).Keeps a :=
  h.imp (mem_erase_of_ne_of_mem hne) (mem_erase_of_ne_of_mem hne)

theorem Pool.Keeps.claim (h : pool.Keeps a) : (pool.claim p).Keeps a := by
  by_cases ha : a = p
  · exact .inr (ha ▸ mem_insert_self a _)
  · exact h.imp (mem_erase_of_ne_of_mem ha) (mem_insert_of_mem ·)

/-- A write that failed hands the page back; one that succeeded hands back all others. -/
theorem Pool.Keeps.finish (h : pool.Keeps a) (hne : success = true → a ≠ p) :
    (pool.finish p success).Keeps a := by
  unfold Pool.finish
  split
  case isTrue hp =>
    by_cases ha : a = p
    · cases success with
      | true => exact absurd ha (hne rfl)
      | false => exact .inl (ha ▸ mem_insert_self a _)
    · refine h.imp (fun h => ?_) (mem_erase_of_ne_of_mem ha)
      cases success
      · exact mem_insert_of_mem h
      · exact h
  case isFalse => exact h

theorem Pool.Keeps.restore (h : pool.Keeps a) : (pool.restore claimed).Keeps a := by
  induction claimed generalizing pool with
  | nil => exact h
  | cons p claimed ih => exact ih (h.finish nofun)

theorem Pool.Keeps.leave (h : pool.Keeps a)
    (hne : success = true → a ≠ e.page) : (e.leave success clean pool).Keeps a := by
  unfold Eviction.leave
  split
  · dsimp only
    split
    case isTrue hremove => exact (h.finish hne).remove (hne hremove.1)
    case isFalse => exact h.finish hne
  · split
    case isTrue hremove => exact h.remove (hne hremove.1)
    case isFalse => exact h

theorem Pool.busy_finish (h : a ∈ (pool.finish p success).busy) (hvalid : pool.Valid) :
    a ∈ pool.busy ∧ a ≠ p := by
  unfold Pool.finish at h
  split at h
  case isTrue => exact ⟨mem_of_mem_erase h, Finset.ne_of_mem_erase h⟩
  case isFalse hp => exact ⟨h, fun ha => hp (ha ▸ hvalid.busy h)⟩

theorem Pool.busy_restore (h : a ∈ (pool.restore claimed).busy) (hvalid : pool.Valid) :
    a ∈ pool.busy ∧ a ∉ claimed := by
  induction claimed generalizing pool with
  | nil => exact ⟨h, not_mem_nil⟩
  | cons p claimed ih =>
    obtain ⟨hbusy, hrest⟩ := ih h hvalid.finish
    obtain ⟨hbusy, hne⟩ := busy_finish hbusy hvalid
    exact ⟨hbusy, by simp [hne, hrest]⟩

theorem Pool.busy_leave (h : a ∈ (e.leave success clean pool).busy)
    (hvalid : pool.Valid) : a ∈ pool.busy ∧ (e.attached = true → a ≠ e.page) := by
  unfold Eviction.leave at h
  split at h
  case isTrue =>
    have hfinish : a ∈ (pool.finish e.page success).busy := by
      dsimp only at h
      split at h
      · exact mem_of_mem_erase h
      · exact h
    obtain ⟨hbusy, hne⟩ := busy_finish hfinish hvalid
    exact ⟨hbusy, fun _ => hne⟩
  case isFalse hdetached =>
    refine ⟨?_, fun h => absurd h hdetached⟩
    split at h
    · exact mem_of_mem_erase h
    · exact h

/-! ### The pages outside -/

/-- The pages that wait or are free are distinct, in the file, and not in use. -/
structure Apart (out : List ℕ) (owned : Finset ℕ) (n : ℕ) : Prop where
  nodup : out.Nodup
  disjoint : ∀ p ∈ out, p ∉ owned
  out_lt : ∀ p ∈ out, p < n
  owned_lt : ∀ p ∈ owned, p < n

variable {out out' pages anchors order : List ℕ} {owned : Finset ℕ} {n growing : ℕ}

theorem Apart.subperm (h : Apart out owned n) (hsub : out'.Subperm out) : Apart out' owned n := by
  obtain ⟨l, hperm, hl⟩ := hsub
  have hmem (p : ℕ) (hp : p ∈ out') : p ∈ out := hl.subset (hperm.mem_iff.mpr hp)
  exact ⟨hperm.nodup_iff.mp (h.nodup.sublist hl), fun p hp => h.disjoint p (hmem p hp),
    fun p hp => h.out_lt p (hmem p hp), h.owned_lt⟩

theorem Apart.free (h : Apart out owned n) (hp : p ∈ owned) : Apart (p :: out) (owned.erase p) n where
  nodup := nodup_cons.mpr ⟨fun hmem => h.disjoint p hmem hp, h.nodup⟩
  disjoint := forall_mem_cons.mpr
    ⟨Finset.notMem_erase p _, fun q hq hmem => h.disjoint q hq (mem_of_mem_erase hmem)⟩
  out_lt := forall_mem_cons.mpr ⟨h.owned_lt p hp, h.out_lt⟩
  owned_lt q hq := h.owned_lt q (mem_of_mem_erase hq)

theorem Apart.handOut (h : Apart (p :: out) owned n) : Apart out (insert p owned) n where
  nodup := h.nodup.of_cons
  disjoint q hq hmem := by
    obtain rfl | hmem := mem_insert.mp hmem
    · exact (nodup_cons.mp h.nodup).1 hq
    · exact h.disjoint q (mem_cons_of_mem _ hq) hmem
  out_lt q hq := h.out_lt q (mem_cons_of_mem _ hq)
  owned_lt q hq := by
    obtain rfl | hq := mem_insert.mp hq
    · exact h.out_lt q mem_cons_self
    · exact h.owned_lt q hq

theorem Apart.extend (h : Apart out owned n) : Apart out owned (n + 1) :=
  ⟨h.nodup, h.disjoint, fun p hp => Nat.lt_succ_of_lt (h.out_lt p hp), fun p hp =>
    Nat.lt_succ_of_lt (h.owned_lt p hp)⟩

theorem Apart.extend_owned (h : Apart out owned n) : Apart out (insert n owned) (n + 1) where
  nodup := h.nodup
  disjoint p hp hmem := by
    obtain rfl | hmem := mem_insert.mp hmem
    · exact (h.out_lt p hp).false
    · exact h.disjoint p hp hmem
  out_lt p hp := Nat.lt_succ_of_lt (h.out_lt p hp)
  owned_lt p hp := by
    obtain rfl | hp := mem_insert.mp hp
    · exact Nat.lt_succ_self p
    · exact Nat.lt_succ_of_lt (h.owned_lt p hp)

/-! ### The invariant -/

variable {s s' : State} {r r' : Release} {α : Type}

/-- The write of the page has failed, or `evict_one` is writing it. -/
def State.Attempted (s : State) (p : ℕ) : Prop := p ∈ s.failed ∨ ⟨p, true⟩ ∈ s.evicting

/-- What a flush knows about a release it covers: the anchors that are due are among the pages it
has still to visit or to write, or somebody else has tried. -/
def Flush.Covers (attempted : ℕ → Prop) (r : Release) : Flush → Prop
  | unneeded => r.completion.isSome → r.due = []
  | skipped limit => r.covered limit = true → r.due = []
  | collecting (some limit) rest claimed =>
    r.covered limit = true → ∀ a ∈ r.due, a ∈ rest ∨ a ∈ claimed ∨ attempted a
  | writing (some limit) claimed => r.covered limit = true → ∀ a ∈ r.due, a ∈ claimed ∨ attempted a
  | _ => True

/-- No content of an anchor that is due is lost, and a flush that covers the release writes it. -/
structure State.Tracks (s : State) (r : Release) : Prop where
  completed : ∀ id ∈ r.completion, id < s.releaseId
  due : r.due ⊆ r.anchors
  keeps : ∀ a ∈ r.due, s.pool.Keeps a
  covers : ∀ f ∈ s.flushes, f.Covers s.Attempted r

/-- All pages that are not in use. -/
def State.released (s : State) : List ℕ := (s.pending ++ s.free ++ s.zeroing).map Release.page

structure Inv (s : State) : Prop where
  valid : s.pool.Valid
  busy : ∀ p ∈ s.pool.busy, ⟨p, true⟩ ∈ s.evicting ∨ ∃ f ∈ s.flushes, p ∈ f.claimed
  one : s.flushes.length ≤ 1
  limits : ∀ f ∈ s.flushes, ∀ limit ∈ f.limit, limit ≤ s.releaseId
  tracks : ∀ r ∈ s.pending, s.Tracks r
  settled : ∀ r ∈ s.free ++ s.zeroing, r.completion.isSome ∧ r.due = []
  apart : Apart s.released s.owned s.fileLen
  freeing : s.freeing.Nodup ∧ ∀ p ∈ s.freeing, p ∈ s.owned

theorem inv_init (n : ℕ) : Inv (init n) where
  valid := ⟨subset_rfl, subset_rfl⟩
  busy _ h := absurd h (Finset.notMem_empty _)
  one := Nat.zero_le 1
  limits _ h := absurd h not_mem_nil
  tracks _ h := absurd h not_mem_nil
  settled _ h := absurd h not_mem_nil
  apart := ⟨nodup_nil, fun _ h => absurd h not_mem_nil, fun _ h => absurd h not_mem_nil,
    fun _ h => Finset.mem_range.mp h⟩
  freeing := ⟨nodup_nil, fun _ h => absurd h not_mem_nil⟩

/-- The same release, with less that is due. -/
structure Release.Shrinks (r r' : Release) : Prop where
  page : r'.page = r.page
  completion : r'.completion = r.completion
  anchors : r'.anchors = r.anchors
  due : r'.due ⊆ r.due

theorem Release.Shrinks.refl (r : Release) : r.Shrinks r := ⟨rfl, rfl, rfl, List.Subset.refl _⟩

theorem Release.shrinks_written (p : ℕ) (r : Release) : r.Shrinks (r.written p) :=
  ⟨rfl, rfl, rfl, fun _ ha => (mem_filter.mp ha).1⟩

theorem Flush.Covers.mono {f : Flush} {attempted attempted' : ℕ → Prop} (h : f.Covers attempted r)
    (hr : r.Shrinks r') (hatt : ∀ a ∈ r'.due, attempted a → attempted' a) : f.Covers attempted' r' := by
  have hcov : ∀ limit, r'.covered limit = r.covered limit := fun limit => by
    rw [Release.covered, Release.covered, hr.completion]
  have hnil (h : r.due = []) : r'.due = [] := subset_nil.mp (h ▸ hr.due)
  cases f with
  | unneeded => exact fun hc => hnil (h (hr.completion ▸ hc))
  | skipped limit => exact fun hc => hnil (h (hcov limit ▸ hc))
  | sampled limit | failed limit => trivial
  | collecting limit rest claimed =>
    cases limit with
    | none => trivial
    | some limit => exact fun hc a ha => (h (hcov limit ▸ hc) a (hr.due ha)).imp_right (Or.imp_right (hatt a ha))
  | writing limit claimed =>
    cases limit with
    | none => trivial
    | some limit => exact fun hc a ha => (h (hcov limit ▸ hc) a (hr.due ha)).imp_right (hatt a ha)

theorem State.Tracks.mono (h : s.Tracks r) (hr : r.Shrinks r') (hid : s.releaseId ≤ s'.releaseId)
    (hkeeps : ∀ a ∈ r'.due, s.pool.Keeps a → s'.pool.Keeps a)
    (hcovers : ∀ f ∈ s'.flushes, f.Covers s'.Attempted r') : s'.Tracks r' where
  completed id hcompleted := (h.completed id (hr.completion ▸ hcompleted)).trans_le hid
  due := List.Subset.trans hr.due (hr.anchors ▸ h.due)
  keeps a ha := hkeeps a ha (h.keeps a (hr.due ha))
  covers := hcovers

/-- A step that leaves the flushes alone. -/
theorem State.Tracks.mono_of_flushes_eq (h : s.Tracks r) (hr : r.Shrinks r')
    (hid : s.releaseId ≤ s'.releaseId)
    (hkeeps : ∀ a ∈ r'.due, s.pool.Keeps a → s'.pool.Keeps a) (hflushes : s'.flushes = s.flushes)
    (hatt : ∀ a ∈ r'.due, s.Attempted a → s'.Attempted a) : s'.Tracks r' :=
  h.mono hr hid hkeeps fun f hf => (h.covers f (hflushes ▸ hf)).mono hr hatt

/-! ### The writes -/

/-- A write changes no more than the pages that have failed and what is due. -/
theorem State.attempted_eq : s.attempted p success =
    { s with failed := (s.attempted p success).failed, pending := (s.attempted p success).pending } := by
  cases success <;> rfl

@[simp] theorem State.pages_attempted :
    (s.attempted p success).pending.map Release.page = s.pending.map Release.page := by
  cases success
  · rfl
  · simp [State.attempted, Release.written]

/-- A write that succeeds is due no longer. -/
theorem State.exists_of_mem_attempted (h : r' ∈ (s.attempted p success).pending) :
    ∃ r ∈ s.pending, r.Shrinks r' ∧ (success = true → p ∉ r'.due) := by
  cases success with
  | false => exact ⟨r', h, .refl r', nofun⟩
  | true =>
    obtain ⟨r, hr, rfl⟩ := mem_map.mp h
    exact ⟨r, hr, r.shrinks_written p, fun _ => by simp [Release.written]⟩

theorem State.notMem_due_attempted (hr : r ∈ (s.attempted p true).pending) : p ∉ r.due := by
  obtain ⟨-, -, -, hdue⟩ := State.exists_of_mem_attempted hr
  exact hdue rfl

theorem State.failed_attempted (ha : a ∈ s.failed) (hne : success = true → a ≠ p) :
    a ∈ (s.attempted p success).failed := by
  cases success with
  | false => exact mem_insert_of_mem ha
  | true => exact mem_erase_of_ne_of_mem (hne rfl) ha

/-! ### The steps -/

theorem Inv.attempted (h : Inv s) (p : ℕ) (success : Bool) : Inv (s.attempted p success) := by
  rw [State.attempted_eq]
  refine { h with tracks := fun r' hr' => ?_, apart := by simpa [State.released] using h.apart }
  obtain ⟨r, hr, hshrinks, hdue⟩ := State.exists_of_mem_attempted hr'
  refine (h.tracks r hr).mono_of_flushes_eq hshrinks le_rfl (fun _ _ => id) rfl fun a ha hatt => ?_
  exact hatt.imp_left (State.failed_attempted · fun hs heq => hdue hs (heq ▸ ha))

theorem Inv.with_pool (h : Inv s) (hvalid : pool.Valid) (hbusy : pool.busy ⊆ s.pool.busy)
    (hkeeps : ∀ a, s.pool.Keeps a → pool.Keeps a) : Inv { s with pool := pool } := { h with
  valid := hvalid
  busy p hp := h.busy p (hbusy hp)
  tracks r hr := (h.tracks r hr).mono_of_flushes_eq (.refl r) le_rfl
    (fun a _ => hkeeps a) rfl fun _ _ => id }

theorem Inv.drop (h : Inv s) (hp : p ∉ s.pool.dirty ∧ p ∉ s.pool.busy) :
    Inv { s with pool := s.pool.remove p } := by
  refine h.with_pool h.valid.remove (erase_subset p _) fun a ha => ha.remove ?_
  rintro rfl
  exact ha.elim hp.1 hp.2

theorem Inv.evict (h : Inv s) (hnone : s.evicting = none) (hp : s.pool.Claimable p) :
    Inv { s with pool := s.pool.claim p, evicting := some ⟨p, true⟩ } := { h with
  valid := h.valid.claim hp
  busy q hq := by
    obtain rfl | hq := mem_insert.mp hq
    · exact .inl rfl
    · exact (h.busy q hq).imp_left fun hmem => by simp [hnone] at hmem
  tracks r hr := (h.tracks r hr).mono_of_flushes_eq (.refl r) le_rfl (fun _ _ ha => ha.claim) rfl
    fun _ _ => Or.imp_right fun hmem => by simp [hnone] at hmem }

theorem Inv.evicted (h : Inv s) (he : s.evicting = some e)
    (hdue : success = true → ∀ r ∈ s.pending, e.page ∉ r.due)
    (hfailed : success = false → e.page ∈ s.failed) :
    Inv { s with pool := e.leave success clean s.pool, evicting := none } := { h with
  valid := h.valid.leave
  busy q hq := by
    obtain ⟨hq, hne⟩ := Pool.busy_leave hq h.valid
    refine (h.busy q hq).imp_left fun hmem => ?_
    cases he.symm.trans hmem
    exact absurd rfl (hne rfl)
  tracks r hr := by
    have hne (a : ℕ) (ha : a ∈ r.due) (hs : success = true) : a ≠ e.page :=
      fun heq => hdue hs r hr (heq ▸ ha)
    refine (h.tracks r hr).mono_of_flushes_eq (.refl r) le_rfl
      (fun a ha hk => hk.leave (hne a ha)) rfl ?_
    intro a ha hatt
    obtain hmem | hmem := hatt
    · exact .inl hmem
    · cases he.symm.trans hmem
      cases success with
      | true => exact absurd rfl (hne a ha rfl)
      | false => exact .inl (hfailed rfl) }

theorem Inv.unframe (h : Inv s) (hok : Ok s (.unframe p)) :
    Inv { s with
      pool := s.pool.remove p
      evicting := s.evicting.map (Eviction.detach p)
      freeing := s.freeing ++ [p] } := { h with
  valid := h.valid.remove
  busy q hq := by
    have hne := Finset.ne_of_mem_erase hq
    refine (h.busy q (mem_of_mem_erase hq)).imp_left fun hmem => ?_
    exact Option.mem_map.mpr ⟨_, hmem, by simp [Eviction.detach, hne]⟩
  tracks r hr := by
    have hne (a : ℕ) (ha : a ∈ r.due) : a ≠ p := fun heq => hok.2.2 r hr (heq ▸ (h.tracks r hr).due ha)
    refine (h.tracks r hr).mono_of_flushes_eq (.refl r) le_rfl
      (fun a ha hk => hk.remove (hne a ha)) rfl ?_
    intro a ha hatt
    refine hatt.imp_right fun hmem => ?_
    exact Option.mem_map.mpr ⟨_, hmem, by simp [Eviction.detach, hne a ha]⟩
  freeing := by
    refine ⟨nodup_append.mpr ⟨h.freeing.1, nodup_singleton p, ?_⟩, fun q hq => ?_⟩
    · rintro q hq _ hp rfl
      exact hok.2.1 (mem_singleton.mp hp ▸ hq)
    · exact (mem_append.mp hq).elim (h.freeing.2 q) fun hq => mem_singleton.mp hq ▸ hok.1 }

theorem Inv.free (h : Inv s) (hp : p ∈ s.freeing) :
    Inv { s with
      freeing := s.freeing.erase p
      pending := s.pending ++ [⟨p, none, [], []⟩]
      owned := s.owned.erase p } := { h with
  tracks r hr := by
    obtain hr | hr := mem_append.mp hr
    · exact (h.tracks r hr).mono_of_flushes_eq (.refl r) le_rfl (fun _ _ => id) rfl fun _ _ => id
    · -- nothing is due yet
      obtain rfl := mem_singleton.mp hr
      refine ⟨by simp, by simp, by simp, fun f _ => ?_⟩
      rcases f with _ | _ | _ | ⟨_ | _, _, _⟩ | ⟨_ | _, _⟩ | _ <;> simp [Flush.Covers]
  apart := by
    refine (h.apart.free (h.freeing.2 p hp)).subperm (subperm ?_)
    simp only [State.released, map_append, map_cons, append_assoc, singleton_append]
    exact perm_middle
  freeing := by
    refine ⟨h.freeing.1.erase p, fun q hq => ?_⟩
    obtain ⟨hne, hq⟩ := h.freeing.1.mem_erase_iff.mp hq
    exact mem_erase_of_ne_of_mem hne (h.freeing.2 q hq) }

theorem Inv.complete (h : Inv s) (hok : Ok s (.complete pages anchors)) :
    Inv { s with
      releaseId := s.releaseId + 1
      pending := s.pending.map (Release.complete pages s.releaseId anchors) } := { h with
  limits f hf limit hlimit := Nat.le_succ_of_le (h.limits f hf limit hlimit)
  tracks r' hr' := by
    obtain ⟨r, hr, rfl⟩ := mem_map.mp hr'
    unfold Release.complete
    split
    case isTrue hcompletes =>
      -- no flush that runs covers a release that is completed now
      refine ⟨by simp, List.Subset.refl _, fun a ha => .inl (hok.2 a ha).1, fun f hf => ?_⟩
      have hlimit (limit : ℕ) (hl : limit ∈ f.limit) : ¬ s.releaseId < limit :=
        not_lt.mpr (h.limits f hf limit hl)
      rcases f with _ | limit | _ | ⟨_ | limit, _, _⟩ | ⟨_ | limit, _⟩ | _
      case unneeded => exact absurd hf hok.1
      all_goals first
        | trivial
        | exact fun hcov => absurd (by simpa [Release.covered] using hcov) (hlimit limit rfl)
    case isFalse => exact (h.tracks r hr).mono_of_flushes_eq (.refl r) (Nat.le_succ _) (fun _ _ => id) rfl fun _ _ => id
  apart := by
    have hpages : (s.pending.map (Release.complete pages s.releaseId anchors)).map Release.page =
      s.pending.map Release.page := by
      rw [map_map]
      refine map_congr_left fun r _ => ?_
      simp only [Function.comp_apply, Release.complete]
      split <;> rfl
    simpa [State.released, hpages] using h.apart }

/-- Pages move between the lists, and leave them. -/
theorem Inv.with_free {free zeroing : List Release} (h : Inv s)
    (hperm : (free ++ zeroing).Perm (s.free ++ s.zeroing)) :
    Inv { s with free := free, zeroing := zeroing, growing := growing } := { h with
  tracks r hr := { h.tracks r hr with }
  settled r hr := h.settled r (hperm.mem_iff.mp hr)
  apart := by
    refine h.apart.subperm (subperm (map _ ?_))
    simpa only [append_assoc] using hperm.append_left s.pending }

/-- The element at a position is the first of a permutation. -/
theorem perm_cons_eraseIdx {l : List α} {b : α} (h : l[n]? = some b) :
    l.Perm (b :: l.eraseIdx n) := by
  obtain ⟨hn, rfl⟩ := List.getElem?_eq_some_iff.mp h
  exact (List.getElem_cons_eraseIdx_perm hn).symm

theorem Inv.zeroed (h : Inv s) (hn : s.zeroing[n]? = some r) :
    Inv { s with zeroing := s.zeroing.eraseIdx n, owned := insert r.page s.owned } := { h with
  tracks r hr := { h.tracks r hr with }
  settled r hr := by
    exact h.settled r (mem_append.mpr ((mem_append.mp hr).imp_right mem_of_mem_eraseIdx))
  apart := by
    refine (h.apart.subperm (subperm ?_)).handOut
    have hperm : (s.pending ++ s.free ++ s.zeroing).Perm
      (r :: (s.pending ++ s.free ++ s.zeroing.eraseIdx n)) :=
      ((perm_cons_eraseIdx hn).append_left _).trans perm_middle
    exact (hperm.map Release.page).symm
  freeing := ⟨h.freeing.1, fun p hp => mem_insert_of_mem (h.freeing.2 p hp)⟩ }

theorem Inv.extend (h : Inv s) :
    Inv { s with
      growing := s.growing - 1
      fileLen := s.fileLen + 1
      owned := if success then insert s.fileLen s.owned else s.owned } := { h with
  tracks r hr := { h.tracks r hr with }
  apart := by
    cases success
    · exact h.apart.extend
    · exact h.apart.extend_owned
  freeing := by
    refine ⟨h.freeing.1, fun p hp => ?_⟩
    cases success
    · exact h.freeing.2 p hp
    · exact mem_insert_of_mem (h.freeing.2 p hp) }

/-! ### The steps of a flush -/

variable {f : Flush} {limit : Option ℕ}

variable (h : Inv s)

include h

theorem Inv.flushes_eq (hf : s.flushes[n]? = some f) : s.flushes = [f] ∧ n = 0 := by
  obtain ⟨hn, hf⟩ := List.getElem?_eq_some_iff.mp hf
  have hone := h.one
  obtain ⟨g, hg⟩ := List.length_eq_one_iff.mp (show s.flushes.length = 1 by omega)
  obtain rfl : n = 0 := by omega
  simp only [hg, List.getElem_cons_zero] at hf
  exact ⟨hf ▸ hg, rfl⟩

/-- The flush goes on with pages of the pool. -/
theorem Inv.with_pool_flush (hvalid : pool.Valid)
    (hbusy : ∀ q ∈ pool.busy, q ∈ f.claimed ∨ q ∈ s.pool.busy ∧ ∀ g ∈ s.flushes, q ∈ g.claimed →
      q ∈ f.claimed)
    (hlimit : ∀ limit ∈ f.limit, limit ≤ s.releaseId)
    (hkeeps : ∀ r ∈ s.pending, ∀ a ∈ r.due, s.pool.Keeps a → pool.Keeps a)
    (hcovers : ∀ r ∈ s.pending, f.Covers s.Attempted r) :
    Inv { s with pool := pool, flushes := [f] } := { h with
  valid := hvalid
  busy q hq := by
    obtain hq | ⟨hq, hclaimed⟩ := hbusy q hq
    · exact .inr ⟨f, mem_singleton_self f, hq⟩
    · exact (h.busy q hq).imp_right fun ⟨g, hg, hclaim⟩ =>
        ⟨f, mem_singleton_self f, hclaimed g hg hclaim⟩
  one := le_rfl
  limits g hg := by
    obtain rfl := mem_singleton.mp hg
    exact hlimit
  tracks r hr := by
    refine (h.tracks r hr).mono (.refl r) le_rfl (hkeeps r hr) fun g hg => ?_
    obtain rfl := mem_singleton.mp hg
    exact hcovers r hr }

/-- The flush goes on, and nothing else changes. -/
theorem Inv.with_flush (hclaimed : ∀ g ∈ s.flushes, g.claimed ⊆ f.claimed)
    (hlimit : ∀ limit ∈ f.limit, limit ≤ s.releaseId)
    (hcovers : ∀ r ∈ s.pending, f.Covers s.Attempted r) : Inv { s with flushes := [f] } :=
  h.with_pool_flush h.valid (fun _ hq => .inr ⟨hq, fun g hg hclaim => hclaimed g hg hclaim⟩) hlimit
    (fun _ _ _ _ => id)
    hcovers

theorem Inv.check (hok : Ok s .check) (hdirty : s.pool.dirty = ∅) :
    Inv { s with flushes := [.unneeded] } := by
  obtain ⟨hflushes, hevictions⟩ := hok
  refine h.with_flush (by simp [hflushes]) nofun fun r hr _ =>
    eq_nil_iff_forall_not_mem.mpr fun a ha => ?_
  -- nothing is dirty, and nothing is being written
  obtain hmem | hmem := (h.tracks r hr).keeps a ha
  · simp [hdirty] at hmem
  · simpa [hflushes, hevictions] using h.busy a hmem

theorem Inv.skip (hf : s.flushes = [.unneeded]) : Inv { s with flushes := [.skipped s.releaseId] } := by
  refine h.with_flush (by simp [hf, Flush.claimed]) (by simp [Flush.limit]) fun r hr hcov => ?_
  have hdue := (h.tracks r hr).covers .unneeded (by simp [hf])
  refine hdue ?_
  obtain ⟨id, hid, -⟩ := (Option.any_eq_true _ _).mp hcov
  simp [hid]

theorem Inv.sample (hok : s.flushes = []) :
    Inv { s with flushes := [.sampled (if checkpoint then some s.releaseId else none)] } := by
  refine h.with_flush (by simp [hok]) (fun limit hlimit => ?_) fun _ _ => trivial
  cases checkpoint with
  | false => cases hlimit
  | true => exact (Option.some.inj hlimit).ge

theorem Inv.collect (hf : s.flushes = [.sampled limit]) (horder : limit.isSome →
    s.pool.frames ⊆ order.toFinset) : Inv { s with flushes := [.collecting limit order []] } := by
  refine h.with_flush (by simp [hf, Flush.claimed])
    (h.limits (.sampled limit) (by simp [hf])) fun r hr => ?_
  cases limit with
  | none => trivial
  | some limit =>
    intro _ a ha
    left
    have hframe : a ∈ s.pool.frames :=
      ((h.tracks r hr).keeps a ha).elim (h.valid.dirty ·) (h.valid.busy ·)
    exact mem_toFinset.mp (horder rfl hframe)

theorem Inv.visit (hf : s.flushes[n]? = some f) (hvisit : s.visit n f = some s') : Inv s' := by
  obtain ⟨hflushes, rfl⟩ := h.flushes_eq hf
  unfold State.visit at hvisit
  split at hvisit
  case h_3 => cases hvisit
  case h_2 limit claimed =>
    cases hvisit
    simp only [hflushes, set_cons_zero]
    refine h.with_flush (by simp [hflushes, Flush.claimed])
      (h.limits (.collecting limit [] claimed) (by simp [hflushes])) ?_
    intro r hr
    have hcovers := (h.tracks r hr).covers (.collecting limit [] claimed) (by simp [hflushes])
    cases limit with
    | none => trivial
    | some limit => exact fun hcov a ha => (hcovers hcov a ha).resolve_left not_mem_nil
  case h_1 limit p rest claimed =>
    cases hvisit
    simp only [hflushes, set_cons_zero]
    have hmem : Flush.collecting limit (p :: rest) claimed ∈ s.flushes := by simp [hflushes]
    split
    case isTrue hp =>
      refine h.with_pool_flush (h.valid.claim hp) (fun q hq => ?_)
        (h.limits (.collecting limit (p :: rest) claimed) hmem)
        (fun _ _ _ _ ha => ha.claim) fun r hr => ?_
      · obtain rfl | hq := mem_insert.mp hq
        · exact .inl (by simp [Flush.claimed])
        · exact .inr ⟨hq, by simp +contextual [hflushes, Flush.claimed]⟩
      · cases limit with
        | none => trivial
        | some limit =>
          intro hcov a ha
          have hcovers := (h.tracks r hr).covers _ hmem hcov a ha
          simp only [mem_cons, mem_append] at hcovers ⊢
          tauto
    case isFalse hp =>
      refine h.with_flush (by simp [hflushes, Flush.claimed])
        (h.limits (.collecting limit (p :: rest) claimed) hmem) fun r hr => ?_
      cases limit with
      | none => trivial
      | some limit =>
        intro hcov a ha
        obtain hvisit | hcovers := (h.tracks r hr).covers _ hmem hcov a ha
        · obtain rfl | hrest := mem_cons.mp hvisit
          · -- the page is passed over because somebody is writing it
            have hbusy : a ∈ s.pool.busy := by
              obtain hdirty | hbusy := (h.tracks r hr).keeps a ha
              · by_contra hbusy
                exact hp ⟨hdirty, hbusy⟩
              · exact hbusy
            obtain hevict | ⟨g, hg, hclaim⟩ := h.busy a hbusy
            · exact .inr (.inr (.inr hevict))
            · obtain rfl := mem_singleton.mp (hflushes ▸ hg)
              exact .inr (.inl hclaim)
          · exact .inl hrest
        · exact .inr hcovers

/-- The first of the claimed pages was written. -/
theorem Inv.wrote (hflushes : s.flushes = [.writing limit (p :: claimed)])
    (hdue : ∀ r ∈ s.pending, p ∉ r.due) :
    Inv { s with pool := s.pool.finish p true, flushes := [.writing limit claimed] } := by
  have hmem : Flush.writing limit (p :: claimed) ∈ s.flushes := by simp [hflushes]
  have hne : ∀ r ∈ s.pending, ∀ a ∈ r.due, a ≠ p := fun r hr a ha heq => hdue r hr (heq ▸ ha)
  refine h.with_pool_flush h.valid.finish (fun q hq => ?_)
    (h.limits (.writing limit (p :: claimed)) hmem)
    (fun r hr a ha hk => hk.finish fun _ => hne r hr a ha) fun r hr => ?_
  · obtain ⟨hq, hne⟩ := Pool.busy_finish hq h.valid
    exact .inr ⟨hq, by simp [hflushes, Flush.claimed, hne]⟩
  · have hcovers := (h.tracks r hr).covers _ hmem
    cases limit with
    | none => trivial
    | some limit =>
      exact fun hcov a ha => (hcovers hcov a ha).imp_left fun hmem =>
        (mem_cons.mp hmem).resolve_left (hne r hr a ha)

/-- The flush gives up. -/
theorem Inv.gaveUp (hflushes : s.flushes = [.writing limit claimed]) :
    Inv { s with pool := s.pool.restore claimed, flushes := [.failed limit] } := by
  refine h.with_pool_flush h.valid.restore (fun q hq => .inr ?_)
    (h.limits (.writing limit claimed) (by simp [hflushes]))
    (fun _ _ _ _ hk => hk.restore) fun _ _ => trivial
  obtain ⟨hq, hne⟩ := Pool.busy_restore hq h.valid
  exact ⟨hq, by simp [hflushes, Flush.claimed, hne]⟩

theorem Inv.write (hf : s.flushes[n]? = some f) (hwrite : s.write n success f = some s') : Inv s' := by
  obtain ⟨hflushes, rfl⟩ := h.flushes_eq hf
  unfold State.write at hwrite
  split at hwrite
  case h_2 => cases hwrite
  case h_1 limit p claimed =>
    cases hwrite
    simp only [hflushes, set_cons_zero]
    cases success with
    | true =>
      exact (h.attempted p true).wrote hflushes fun r hr => State.notMem_due_attempted hr
    | false => exact (h.attempted p false).gaveUp hflushes

theorem Inv.promote {limit : ℕ}
    (hdue : ∀ r ∈ s.pending, s.promotes limit r = true → r.due = []) : Inv (s.promote limit) := { h with
  tracks r hr := { h.tracks r (mem_of_mem_filter hr) with }
  settled r hr := by
    simp only [State.promote, append_assoc, mem_append, mem_reverse, mem_filter] at hr
    obtain ⟨hr, hpromotes⟩ | hr := hr
    · refine ⟨?_, hdue r hr hpromotes⟩
      obtain ⟨id, hid, -⟩ := (Option.any_eq_true _ _).mp (Bool.and_eq_true_iff.mp hpromotes).1
      simp [hid]
    · exact h.settled r (mem_append.mpr hr)
  apart := by
    refine h.apart.subperm (subperm (map _ ?_))
    simp only [State.promote, ← append_assoc]
    refine append_right _ (append_right _ ?_)
    exact ((reverse_perm _).append_left _).trans
      (perm_append_comm.trans (filter_append_perm _ _)) }

theorem Inv.discard {limit : ℕ} : Inv (s.discard limit) := { h with
  tracks r hr := { h.tracks r (mem_of_mem_filter hr) with }
  apart := by
    refine h.apart.subperm (List.Sublist.subperm (List.Sublist.map _ ?_))
    exact (filter_sublist.append_right _).append_right _ }

/-- A flush ends that has no page left to write. -/
theorem Inv.ended (hclaimed : ∀ g ∈ s.flushes, g.claimed = []) : Inv { s with flushes := [] } := { h with
  busy q hq := by
    refine .inl ((h.busy q hq).resolve_right ?_)
    rintro ⟨g, hg, hclaim⟩
    rw [hclaimed g hg] at hclaim
    cases hclaim
  one := Nat.zero_le 1
  limits _ hg := absurd hg not_mem_nil
  tracks r hr := (h.tracks r hr).mono (.refl r) le_rfl (fun _ _ => id) fun _ hg =>
    absurd hg not_mem_nil }

/-- Nothing is due of a release that a checkpoint lets go. -/
theorem Inv.due_eq_nil {limit : ℕ} (hok : Ok s (.finish n))
    (hf : s.flushes[n]? = some (.writing (some limit) []))
    (hr : r ∈ s.pending) (hpromotes : s.promotes limit r = true) : r.due = [] := by
  obtain ⟨hcov, hanchors⟩ := Bool.and_eq_true_iff.mp hpromotes
  refine eq_nil_iff_forall_not_mem.mpr fun a ha => ?_
  have hanchor := (h.tracks r hr).due ha
  obtain hmem | hfailed | hevict := (h.tracks r hr).covers _ (mem_of_getElem? hf) hcov a ha
  · cases hmem
  · exact of_decide_eq_true (all_eq_true.mp hanchors a hanchor) hfailed
  · exact hok _ hf limit rfl r hr hcov a hanchor _ hevict rfl

theorem Inv.finish (hok : Ok s (.finish n)) (hf : s.flushes[n]? = some f)
    (hfinish : State.finish { s with flushes := s.flushes.eraseIdx n } f = some s') : Inv s' := by
  obtain ⟨hflushes, rfl⟩ := h.flushes_eq hf
  simp only [hflushes, eraseIdx_zero, tail_cons] at hfinish
  unfold State.finish at hfinish
  split at hfinish
  case h_6 => cases hfinish
  case h_1 limit =>
    cases hfinish
    refine Inv.promote (h.ended (by simp [hflushes, Flush.claimed])) fun r hr hpromotes => ?_
    exact (h.tracks r hr).covers (.skipped limit) (by simp [hflushes])
      (Bool.and_eq_true_iff.mp hpromotes).1
  case h_2 limit =>
    cases hfinish
    exact Inv.promote (h.ended (by simp [hflushes, Flush.claimed])) fun r hr hpromotes =>
      h.due_eq_nil hok hf hr hpromotes
  case h_3 limit =>
    cases hfinish
    exact (h.ended (by simp [hflushes, Flush.claimed])).discard
  all_goals
    cases hfinish
    exact h.ended (by simp [hflushes, Flush.claimed])

/-- Every step the condition allows keeps the invariant. -/
theorem inv_step {label : Label} (hok : Ok s label) (hstep : step s label = some s') : Inv s' := by
  cases label with
  | load p =>
    cases hstep
    refine h.with_pool ⟨?_, ?_⟩ subset_rfl fun _ => id
    · exact h.valid.dirty.trans (subset_insert p _)
    · exact h.valid.busy.trans (subset_insert p _)
  | modify p =>
    cases hstep
    exact h.with_pool h.valid.modify subset_rfl fun _ ha => ha.modify
  | drop p =>
    obtain ⟨⟨-, hp⟩, rfl⟩ := of_guard hstep
    exact h.drop hp
  | evict p =>
    obtain ⟨⟨hnone, hp⟩, rfl⟩ := of_guard hstep
    exact h.evict hnone hp
  | evicted success clean =>
    obtain ⟨e, he, rfl⟩ := Option.map_eq_some_iff.mp hstep
    cases success with
    | true => exact (h.attempted e.page true).evicted he (fun _ r hr => State.notMem_due_attempted hr) nofun
    | false => exact (h.attempted e.page false).evicted he nofun fun _ => mem_insert_self _ _
  | unframe p =>
    cases hstep
    exact h.unframe hok
  | free p =>
    obtain ⟨⟨-, hp⟩, rfl⟩ := of_guard hstep
    exact h.free hp
  | complete pages anchors =>
    cases hstep
    split
    · exact h
    · exact h.complete hok
  | allocate =>
    simp only [step] at hstep
    split at hstep
    case h_1 hfree =>
      cases hstep
      exact h.with_free (.refl _)
    case h_2 r free hfree =>
      cases hstep
      refine h.with_free ?_
      rw [hfree, ← append_assoc]
      exact perm_append_singleton r _
  | zeroed n success =>
    obtain ⟨r, hr, rfl⟩ := Option.map_eq_some_iff.mp hstep
    cases success with
    | true => exact (h.attempted r.page true).zeroed hr
    | false =>
      refine (h.attempted r.page false).with_free ?_
      exact perm_middle.symm.trans ((perm_cons_eraseIdx hr).symm.append_left _)
  | extend success =>
    obtain ⟨-, rfl⟩ := of_guard hstep
    exact h.extend
  | check =>
    obtain ⟨hdirty, rfl⟩ := of_guard hstep
    rw [hok.1]
    exact h.check hok hdirty
  | skip n =>
    obtain ⟨hf, rfl⟩ := of_guard hstep
    obtain ⟨hflushes, rfl⟩ := h.flushes_eq hf
    rw [hflushes]
    exact h.skip hflushes
  | flush checkpoint =>
    cases hstep
    rw [show s.flushes = [] from hok]
    exact h.sample hok
  | collect n order =>
    simp only [step] at hstep
    split at hstep
    case h_2 => cases hstep
    case h_1 limit hf =>
      obtain ⟨horder, rfl⟩ := of_guard hstep
      obtain ⟨hflushes, rfl⟩ := h.flushes_eq hf
      rw [hflushes]
      exact h.collect hflushes horder
  | visit n =>
    obtain ⟨f, hf, hstep⟩ := Option.bind_eq_some_iff.mp hstep
    exact h.visit hf hstep
  | write n success =>
    obtain ⟨f, hf, hstep⟩ := Option.bind_eq_some_iff.mp hstep
    exact h.write hf hstep
  | finish n =>
    obtain ⟨f, hf, hstep⟩ := Option.bind_eq_some_iff.mp hstep
    exact h.finish hok hf hstep

/-! ### Allocation -/

theorem Inv.allocatesSafely (label : Label) : AllocatesSafely s label := by
  intro g hg
  unfold State.returned at hg
  split at hg
  case h_1 n =>
    obtain ⟨r, hr, rfl⟩ := Option.map_eq_some_iff.mp hg
    have hmem : r ∈ s.zeroing := mem_of_getElem? hr
    refine ⟨h.apart.disjoint r.page (mem_map_of_mem (mem_append_right _ hmem)), fun r' hr' => ?_⟩
    cases hr'
    exact h.settled r (mem_append_right _ hmem)
  case h_2 =>
    cases hg
    exact ⟨fun hmem => (h.apart.owned_lt _ hmem).false, nofun⟩
  case h_3 => cases hg

omit h

/-- **Reuse of pages.** In every run that meets the condition, whatever fails to be written and in
whatever order, `allocate_page` returns no page that is in use, and a released page only if its
release was completed and each of its anchors was written since. -/
theorem reuses_page_after_anchors {n : ℕ} {labels : List Label} {s : State}
    (hok : Guarded Ok step (init n) labels)
    (hrun : run step (init n) labels = some s) (label : Label) : AllocatesSafely s label :=
  (run_invariant (fun _ _ _ h hok hstep => inv_step h hok hstep)
    (inv_init n) hok hrun).allocatesSafely label

/-- Page 0 is freed, and its release is completed, with anchor 1, while page 2 is evicted in vain; a
checkpoint writes all, and page 0 is taken off the free list. -/
def release : List Label :=
  [.unframe 0, .free 0, .modify 2, .evict 2, .modify 1, .complete [0] [1], .flush true,
    .collect 0 [1, 2], .visit 0,
    .evicted false true, .visit 0, .visit 0, .write 0 true, .write 0 true, .finish 0, .allocate]

theorem reuses_page_after_anchors_release :
    ∃ s, run step (init 3) release = some s ∧ (s.returned (.zeroed 0 true)).isSome ∧
      AllocatesSafely s (.zeroed 0 true) :=
  exists_run (by decide +kernel) fun _ hok hs _ => reuses_page_after_anchors hok hs _

/-- Page 0 is freed. The anchor is being evicted when it is changed and the release is completed;
the checkpoint passes over it, and succeeds. -/
def hastyRelease : List Label :=
  [.unframe 0, .free 0, .modify 1, .evict 1, .modify 1, .complete [0] [1], .flush true,
    .collect 0 [1], .visit 0, .visit 0, .finish 0, .allocate]

/-- **A page is reused too early**: the anchor that no longer refers to page 0 was never written. -/
theorem reuses_page_before_anchor :
    ∃ s, run step (init 2) hastyRelease = some s ∧
      ∃ r, s.returned (.zeroed 0 true) = some (0, some r) ∧ r.completion = some 0 ∧
      r.anchors = [1] ∧ r.due = [1] := by
  obtain ⟨s, hs, ⟨page, release⟩, hreturned, rfl, r, rfl, hdue⟩ : ∃ s,
    run step (init 2) hastyRelease = some s ∧
      ∃ g, s.returned (.zeroed 0 true) = some g ∧ g.1 = 0 ∧ ∃ r, g.2 = some r ∧
        r.completion = some 0 ∧ r.anchors = [1] ∧ r.due = [1] := by
    decide +kernel
  exact ⟨s, hs, r, hreturned, hdue⟩

end RTsql.Storage.FreePages
