import RTsql.Storage.PoolSafety

/-!
# Pages that only grow

What the steps of the buffer pool do to the contents of pages, when a write that fails leaves the
page as it was.

Where the contents are lists to which modifications add, the stored page has nothing that a copy on
its way there has not, and the copy nothing that the page has not (`Growing`). So no step takes
anything away from storage, and what was on the pages when `flush_all` began is stored when it ends
(`State.Covers`), if it finds no page whose write by somebody else is in flight. -/

namespace RTsql.Storage.BufferPool

open List RTsql.Library Option
open Function (update update_of_ne update_self)

universe u

variable {β : Type u} {s s' : State β} {m : Memory β} {label : Label β} {n p f : ℕ}
  {old call : Call β} {flush next : Flush β} {c : Copy β}

/-! ### Steps and contents -/

/-- The copy that a step brings to storage. -/
def State.stored (s : State β) : Label β → Option (Copy β)
  | .evicted n none => s.calls[n]?.bind (·.claimed.head?)
  | .wrote n none => s.flushes[n]?.bind (·.claimed.head?)
  | _ => none

/-- A write that fails leaves the page as it was. -/
def State.Whole (s : State β) : Label β → Prop
  | .tear _ _ => False
  | .evicted n (some bytes) => ∀ call ∈ s.calls[n]?, ∀ c ∈ call.claimed, bytes = s.mem.storage c.page
  | .wrote n (some bytes) =>
    ∀ flush ∈ s.flushes[n]?, ∀ c ∈ flush.claimed.head?, bytes = s.mem.storage c.page
  | _ => True

instance [DecidableEq β] (s : State β) (label : Label β) : Decidable (s.Whole label) :=
  match label with
  | .tear _ _ => inferInstanceAs (Decidable False)
  | .evicted _ (some _) => inferInstanceAs (Decidable (∀ call ∈ _, _))
  | .wrote _ (some _) => inferInstanceAs (Decidable (∀ flush ∈ _, _))
  | .get _ | .advance _ | .read _ _ | .evicted _ none | .modify _ _ | .drop _ | .flush _ _ | .flushPages _ | .visit _
  | .wrote _ none => inferInstanceAs (Decidable True)

/-- What a step does to the contents of pages. -/
inductive Effect (s : State β) (label : Label β) (s' : State β) : Prop where
  /-- A copy may be made. -/
  | quiet (hstorage : s'.mem.storage = s.mem.storage) (hlast : s'.mem.last = s.mem.last)
      (hcopies : ∀ c ∈ s'.copies, c ∈ s.copies ∨ ∃ f ∈ s.mem.pages.lookup c.page,
        c = s.mem.copy c.page f)
  | modified {n p f : ℕ} {data : β} (hlabel : label = .modify n data)
    (hholds : s.calls[n]? = some (.holds p f))
      (hstorage : s'.mem.storage = s.mem.storage) (hlast : s'.mem.last = update s.mem.last p data)
      (hcopies : s'.copies = s.copies)
  | stored {c : Copy β} (hc : c ∈ s.stored label)
    (hstorage : s'.mem.storage = update s.mem.storage c.page c.data)
      (hlast : s'.mem.last = s.mem.last) (hcopies : s.copies ~ c :: s'.copies)

theorem copies_set_call (s' : State β) (hn : s.calls[n]? = some old)
    (hcalls : s'.calls = s.calls.set n call)
    (hflushes : s'.flushes = s.flushes) : old.claimed ++ s'.copies ~ call.claimed ++ s.copies := by
  obtain ⟨rest, hold, hnew⟩ := exists_perm_set hn
  have hs := (hold.flatMap_right Call.claimed).append_right (s.flushes.flatMap Flush.claimed)
  have hs' := ((hnew call).flatMap_right Call.claimed).append_right (s.flushes.flatMap Flush.claimed)
  rw [flatMap_cons, append_assoc] at hs hs'
  rw [State.copies, hcalls, hflushes]
  exact (hs'.append_left _).trans (perm_append_comm_assoc ..) |>.trans (hs.symm.append_left _)

theorem copies_set_flush {old : Flush β} (s' : State β) (hn : s.flushes[n]? = some old)
    (hcalls : s'.calls = s.calls) (hflushes : s'.flushes = s.flushes.set n flush) :
    old.claimed ++ s'.copies ~ flush.claimed ++ s.copies := by
  obtain ⟨rest, hold, hnew⟩ := exists_perm_set hn
  have hs := (hold.flatMap_right Flush.claimed).append_left (s.calls.flatMap Call.claimed)
  have hs' := ((hnew flush).flatMap_right Flush.claimed).append_left (s.calls.flatMap Call.claimed)
  have hswap (l : List (Copy β)) :=
    perm_append_comm_assoc (s.calls.flatMap Call.claimed) l (rest.flatMap Flush.claimed)
  rw [flatMap_cons] at hs hs'
  rw [State.copies, hcalls, hflushes]
  exact ((hs'.trans (hswap _)).append_left _).trans (perm_append_comm_assoc ..) |>.trans
    ((hs.trans (hswap _)).symm.append_left _)

/-- Contents stay, and nothing is claimed but what was, or what is copied now. -/
theorem Effect.of_perm {old new : List (Copy β)} (hstorage : s'.mem.storage = s.mem.storage)
    (hlast : s'.mem.last = s.mem.last) (hperm : old ++ s'.copies ~ new ++ s.copies)
    (hnew : ∀ c ∈ new, c ∈ s.copies ∨ ∃ f ∈ s.mem.pages.lookup c.page, c = s.mem.copy c.page f) :
    Effect s label s' := by
  refine .quiet hstorage hlast fun c hc => ?_
  obtain hc | hc := mem_append.mp (hperm.mem_iff.mp (mem_append_right old hc))
  · exact hnew c hc
  · exact .inl hc

theorem Effect.ofCall (hn : s.calls[n]? = some old) (hstorage : s'.mem.storage = s.mem.storage)
    (hlast : s'.mem.last = s.mem.last) (hcalls : s'.calls = s.calls.set n call)
    (hflushes : s'.flushes = s.flushes) (hclaimed : call.claimed = []) : Effect s label s' :=
  .of_perm hstorage hlast (copies_set_call _ hn hcalls hflushes) (by simp [hclaimed])

theorem mem_copies_of_flush (hn : s.flushes[n]? = some flush) (hc : c ∈ flush.claimed) : c ∈ s.copies :=
  mem_append_right _ (mem_flatMap.mpr ⟨flush, mem_of_getElem? hn, hc⟩)

theorem storage_finish (m : Memory β) (p : ℕ) (success : Bool) :
    (m.finish p success).storage = m.storage := by
  unfold Memory.finish
  split <;> rfl

theorem last_finish (m : Memory β) (p : ℕ) (success : Bool) : (m.finish p success).last = m.last := by
  unfold Memory.finish
  split <;> rfl

theorem contents_restore (m : Memory β) (claimed : List (Copy β)) :
    (m.restore claimed).storage = m.storage ∧ (m.restore claimed).last = m.last := by
  induction claimed generalizing m with
  | nil => exact ⟨rfl, rfl⟩
  | cons c claimed ih =>
    obtain ⟨hstorage, hlast⟩ := ih (m.finish c.page false)
    exact ⟨hstorage.trans (storage_finish ..), hlast.trans (last_finish ..)⟩

theorem tear_self (m : Memory β) (p : ℕ) : (m.tear p (m.storage p)).storage = m.storage := by
  simp [Memory.tear]

theorem effect_look (hn : s.calls[n]? = some (.evicting p left .looking)) :
    Effect s label (s.look n p left) := by
  cases left with
  | zero => exact .ofCall hn rfl rfl rfl rfl rfl
  | succ left =>
    cases hhand : s.hand with
    | nil =>
      simp only [State.look, hhand]
      exact .ofCall hn rfl rfl rfl rfl rfl
    | cons victim hand =>
      simp only [State.look, hhand]
      cases hlookup : s.mem.pages.lookup victim with
      | none => exact .ofCall hn rfl rfl rfl rfl rfl
      | some f =>
        dsimp only
        split_ifs
        · exact .ofCall hn rfl rfl rfl rfl rfl
        · exact .ofCall hn rfl rfl rfl rfl rfl
        · refine .of_perm rfl rfl (copies_set_call _ hn rfl rfl) ?_
          exact forall_mem_singleton.mpr (.inr ⟨f, hlookup, rfl⟩)
        · exact .ofCall hn rfl rfl rfl rfl rfl

theorem effect_advance (hn : s.calls[n]? = some call) (hs : s.advance n call = some s') :
    Effect s label s' := by
  cases call with
  | missed | inserted =>
    obtain ⟨-, rfl⟩ := of_guard hs
    exact .ofCall hn rfl rfl rfl rfl rfl
  | locked p =>
    cases hs
    cases s.mem.pages.lookup p <;> exact .ofCall hn rfl rfl rfl rfl rfl
  | absent =>
    simp only [State.advance] at hs
    split_ifs at hs <;> cases hs <;> exact .ofCall hn rfl rfl rfl rfl rfl
  | evicting p left choice =>
    cases choice with
    | looking => cases hs; exact effect_look hn
    | writing => cases hs
    | removing => cases hs; exact .ofCall hn rfl rfl rfl rfl rfl
  | read | pushed => cases hs; exact .ofCall hn rfl rfl rfl rfl rfl
  | reading | holds | ended => cases hs

theorem effect_evicted {failed : Option β} (hn : s.calls[n]? = some call)
    (hwhole : s.Whole (.evicted n failed))
    (hs : s.evicted n failed call = some s') : Effect s (.evicted n failed) s' := by
  unfold State.evicted at hs
  split at hs
  case h_2 => nomatch hs
  case h_1 p left f copy =>
    cases hs
    cases failed with
    | some bytes =>
      obtain rfl := hwhole _ hn copy (mem_singleton_self _)
      exact .ofCall hn (tear_self ..) rfl rfl rfl rfl
    | none =>
      have hstored : copy ∈ s.stored (.evicted n none) := by simp [State.stored, hn, Call.claimed]
      have hperm (mem : Memory β) (hand : List ℕ) (choice : Choice β)
          (hchoice : (Call.evicting p left choice).claimed = []) :
          s.copies ~ copy :: (State.goto ⟨mem, hand, s.capacity, s.calls, s.flushes⟩ n
            (.evicting p left choice)).copies := by
        have hset := copies_set_call
          (State.goto ⟨mem, hand, s.capacity, s.calls, s.flushes⟩ n (.evicting p left choice))
          hn rfl rfl
        rw [hchoice] at hset
        exact hset.symm
      dsimp only
      split_ifs
      · exact .stored hstored rfl rfl (hperm _ _ .looking rfl)
      · exact .stored hstored rfl rfl (hperm _ _ (.removing copy.page) rfl)

/-- The pages that `flush_all` has not visited yet. -/
def Flush.rest : Flush β → List ℕ
  | collecting rest _ => rest
  | _ => []

/-- What a flush does without storage. It makes a copy of the page it comes to, or finds that there
is nothing to copy. -/
structure Visited (s : State β) (n : ℕ) (flush next : Flush β) (s' : State β) : Prop where
  calls : s'.calls = s.calls
  flushes : s'.flushes = s.flushes.set n next
  storage : s'.mem.storage = s.mem.storage
  last : s'.mem.last = s.mem.last
  claimed : ∀ c ∈ next.claimed, c ∈ flush.claimed ∨ ∃ f ∈ s.mem.pages.lookup c.page,
    c = s.mem.copy c.page f
  kept : ∀ c ∈ flush.claimed, c ∈ next.claimed
  rest : ∀ q ∈ flush.rest, q ∈ next.rest ∨ q ∈ flush.rest.head? ∧
    ((∀ f ∈ s.mem.pages.lookup q, ¬ (s.mem.frames f).Claimable) ∨
      ∃ f ∈ s.mem.pages.lookup q, s.mem.copy q f ∈ next.claimed)

theorem exists_visited (hs : s.visit n flush = some s') : ∃ next, Visited s n flush next s' := by
  cases flush with
  | collecting rest claimed =>
    cases rest with
    | nil => cases hs; exact ⟨.writing claimed, rfl, rfl, rfl, rfl, fun _ => .inl, fun _ => id, nofun⟩
    | cons p rest =>
      cases hs
      have hskip (hnone : ∀ f ∈ s.mem.pages.lookup p, ¬ (s.mem.frames f).Claimable) :
          Visited s n (.collecting (p :: rest) claimed) (.collecting rest claimed)
            (s.gotoFlush n (.collecting rest claimed)) :=
        ⟨rfl, rfl, rfl, rfl, fun _ => .inl, fun _ => id,
          forall_mem_cons.mpr ⟨.inr ⟨rfl, .inl hnone⟩, fun _ => .inl⟩⟩
      cases hlookup : s.mem.pages.lookup p with
      | none => exact ⟨_, hskip (by simp [hlookup])⟩
      | some f =>
        dsimp only
        split_ifs with hc
        · refine ⟨.collecting rest (claimed ++ [s.mem.copy p f]), rfl, rfl, rfl, rfl, ?_, ?_, ?_⟩
          · exact forall_mem_append.mpr
              ⟨fun _ => .inl, forall_mem_singleton.mpr (.inr ⟨f, hlookup, rfl⟩)⟩
          · exact fun c hc => mem_append_left _ hc
          · refine forall_mem_cons.mpr ⟨.inr ⟨rfl, .inr ⟨f, hlookup, ?_⟩⟩, fun _ => .inl⟩
            exact mem_append_right _ (mem_singleton_self _)
        · exact ⟨_, hskip (by simpa [hlookup] using hc)⟩
  | visiting rest =>
    cases rest with
    | nil => cases hs; exact ⟨.ended, rfl, rfl, rfl, rfl, nofun, nofun, nofun⟩
    | cons p rest =>
      cases hs
      cases hlookup : s.mem.pages.lookup p with
      | none => exact ⟨.visiting rest, rfl, rfl, rfl, rfl, nofun, nofun, nofun⟩
      | some f =>
        dsimp only
        split_ifs
        · exact ⟨.writingOne (s.mem.copy p f) rest, rfl, rfl, rfl, rfl,
            forall_mem_singleton.mpr (.inr ⟨f, hlookup, rfl⟩), nofun, nofun⟩
        · exact ⟨.visiting rest, rfl, rfl, rfl, rfl, nofun, nofun, nofun⟩
  | writing claimed =>
    cases claimed with
    | nil => cases hs; exact ⟨.ended, rfl, rfl, rfl, rfl, nofun, nofun, nofun⟩
    | cons => nomatch hs
  | writingOne | ended | failed => nomatch hs

/-- A write returns, and the flush goes on to the next one. -/
theorem exists_afterWrite {failed : Option β} (hs : s.wrote n failed flush = some s') :
    ∃ copy rest next, flush.claimed = copy :: rest ∧ next.claimed = rest ∧ flush.rest = [] ∧
      s' = s.afterWrite n copy rest next failed := by
  unfold State.wrote at hs
  split at hs
  · cases hs; exact ⟨_, _, _, rfl, rfl, rfl, rfl⟩
  · cases hs; exact ⟨_, _, _, rfl, rfl, rfl, rfl⟩
  · nomatch hs

/-- A flush goes on, and contents stay. -/
theorem Effect.ofFlush {old : Flush β} (hn : s.flushes[n]? = some old)
    (hstorage : s'.mem.storage = s.mem.storage)
    (hlast : s'.mem.last = s.mem.last) (hcalls : s'.calls = s.calls)
    (hflushes : s'.flushes = s.flushes.set n next)
    (hclaimed : ∀ c ∈ next.claimed, c ∈ old.claimed ∨ ∃ f ∈ s.mem.pages.lookup c.page,
      c = s.mem.copy c.page f) :
    Effect s label s' := by
  refine .of_perm hstorage hlast (copies_set_flush _ hn hcalls hflushes) fun c hc => ?_
  exact (hclaimed c hc).imp_left (mem_copies_of_flush hn)

theorem effect_wrote {failed : Option β} (hn : s.flushes[n]? = some flush)
    (hwhole : s.Whole (.wrote n failed))
    (hs : s.wrote n failed flush = some s') : Effect s (.wrote n failed) s' := by
  obtain ⟨copy, rest, next, hclaimed, hnext, -, rfl⟩ := exists_afterWrite hs
  cases failed with
  | some bytes =>
    obtain rfl := hwhole _ hn copy (by simp [hclaimed])
    obtain ⟨hstorage, hlast⟩ :=
      contents_restore (s.mem.tear copy.page (s.mem.storage copy.page)) (copy :: rest)
    exact .ofFlush hn (hstorage.trans (tear_self ..)) hlast rfl rfl nofun
  | none =>
    have hperm := copies_set_flush (s.afterWrite n copy rest next none) hn rfl rfl
    rw [hclaimed, hnext, cons_append] at hperm
    refine .stored (by simp [State.stored, hn, hclaimed]) (storage_finish ..) (last_finish ..) ?_
    exact (perm_append_left_iff rest).mp (hperm.symm.trans perm_middle.symm)

/-- **What a step does to the contents of pages.** -/
theorem effect_of_step (hwhole : s.Whole label) (hs : step s label = some s') : Effect s label s' := by
  cases label with
  | get p =>
    cases hs
    cases s.mem.pages.lookup p <;>
      exact .quiet rfl rfl fun c hc =>
        .inl (by simpa [State.copies, State.change, Call.claimed] using hc)
  | advance n =>
    obtain ⟨call, hn, hs⟩ := bind_eq_some_iff.mp hs
    exact effect_advance hn hs
  | read n success =>
    simp only [step] at hs
    split at hs
    case h_2 => cases hs
    case h_1 p hn =>
      cases hs
      cases success <;> exact .ofCall hn rfl rfl rfl rfl rfl
  | evicted n failed =>
    obtain ⟨call, hn, hs⟩ := bind_eq_some_iff.mp hs
    exact effect_evicted hn hwhole hs
  | modify n data =>
    simp only [step] at hs
    split at hs
    case h_2 => cases hs
    case h_1 p f hn =>
      cases hs
      exact .modified rfl hn rfl rfl rfl
  | drop n =>
    simp only [step] at hs
    split at hs
    case h_2 => cases hs
    case h_1 p f hn => cases hs; exact .ofCall hn rfl rfl rfl rfl rfl
  | flush | flushPages =>
    cases hs
    exact .quiet rfl rfl fun c hc => .inl (by simpa [State.copies, Flush.claimed] using hc)
  | visit n =>
    obtain ⟨flush, hn, hs⟩ := bind_eq_some_iff.mp hs
    obtain ⟨next, hv⟩ := exists_visited hs
    exact .ofFlush hn hv.storage hv.last hv.calls hv.flushes hv.claimed
  | wrote n failed =>
    obtain ⟨flush, hn, hs⟩ := bind_eq_some_iff.mp hs
    exact effect_wrote hn hwhole hs
  | tear => exact hwhole.elim

/-! ### Contents that grow -/

section Growing

variable {α : Type u} {s s' : State (List α)} {label : Label (List α)} {flush : Flush (List α)} {e : α}

/-- The changes that are stored are on the copies that are being written, and those are on the
page. -/
structure Growing (s : State (List α)) : Prop where
  stored : ∀ p, s.mem.storage p ⊆ s.mem.last p
  copied : ∀ c ∈ s.copies, s.mem.storage c.page ⊆ c.data ∧ c.data ⊆ s.mem.last c.page

/-- A modification takes nothing away. -/
def State.Adds (s : State (List α)) : Label (List α) → Prop
  | .modify n data => ∀ p f, s.calls[n]? = some (.holds p f) → (s.mem.frames f).data ⊆ data
  | _ => True

/-- No change is taken away from a page or from storage. -/
structure Grows (s s' : State (List α)) : Prop where
  storage : ∀ p, s.mem.storage p ⊆ s'.mem.storage p
  last : ∀ p, s.mem.last p ⊆ s'.mem.last p

theorem growing_init (capacity : ℕ) (contents : ℕ → List α) : Growing (init capacity contents) :=
  ⟨fun _ => Subset.refl _, nofun⟩

variable (h : Inv s) (hg : Growing s) (hadds : s.Adds label)

include h hg hadds

theorem Effect.grows (he : Effect s label s') : Grows s s' := by
  cases he with
  | quiet hstorage hlast => exact ⟨fun p => by simp [hstorage], fun p => by simp [hlast]⟩
  | @modified n p f data hlabel hholds hstorage hlast =>
    refine ⟨fun q => by simp [hstorage], fun q => ?_⟩
    subst hlabel
    rw [hlast]
    obtain rfl | hne := eq_or_ne q p
    · rw [update_self, ← (h.sound.shows (h.fits _ (mem_of_getElem? hholds))).data]
      exact hadds q f hholds
    · rw [update_of_ne hne]
      exact Subset.refl _
  | @stored c hc hstorage hlast hcopies =>
    refine ⟨fun q => ?_, fun q => by simp [hlast]⟩
    rw [hstorage]
    obtain rfl | hne := eq_or_ne q c.page
    · rw [update_self]
      exact (hg.copied c (hcopies.mem_iff.mpr mem_cons_self)).1
    · rw [update_of_ne hne]
      exact Subset.refl _

theorem Effect.growing (he : Effect s label s') : Growing s' := by
  have hgrows := he.grows h hg hadds
  cases he with
  | quiet hstorage hlast hcopies =>
    refine ⟨fun p => ?_, fun c hc => ?_⟩
    · rw [hstorage, hlast]
      exact hg.stored p
    · rw [hstorage, hlast]
      obtain hc | ⟨f, hlookup, hcopy⟩ := hcopies c hc
      · exact hg.copied c hc
      · -- The copy is the page as it is.
        have hdata : c.data = s.mem.last c.page :=
          (congrArg Copy.data hcopy).trans (h.sound.shows hlookup).data
        rw [hdata]
        exact ⟨hg.stored c.page, Subset.refl _⟩
  | modified hlabel hholds hstorage hlast hcopies =>
    refine ⟨fun p => ?_, fun c hc => ?_⟩
    · rw [hstorage]
      exact Subset.trans (hg.stored p) (hgrows.last p)
    · rw [hcopies] at hc
      rw [hstorage]
      exact ⟨(hg.copied c hc).1, Subset.trans (hg.copied c hc).2 (hgrows.last c.page)⟩
  | @stored c hc hstorage hlast hcopies =>
    have hold := hg.copied c (hcopies.mem_iff.mpr mem_cons_self)
    refine ⟨fun p => ?_, fun c' hc' => ?_⟩
    · rw [hstorage, hlast]
      obtain rfl | hne := eq_or_ne p c.page
      · rw [update_self]
        exact hold.2
      · rw [update_of_ne hne]
        exact hg.stored p
    · -- There was only one copy of the page.
      have hne : c'.page ≠ c.page := by
        intro heq
        have hsound := h.sound c.page
        rw [Multiset.coe_eq_coe.mpr hcopies, ← Multiset.cons_coe, filter_cons_self] at hsound
        have hnone := hsound.of_cons.1
        exact Multiset.filter_eq_nil.mp hnone c' (Multiset.mem_coe.mpr hc') heq
      rw [hstorage, hlast, update_of_ne hne]
      exact hg.copied c' (hcopies.mem_iff.mpr (mem_cons_of_mem _ hc'))

/-! ### What a flush stores -/

omit h hg hadds

/-- The page that a flush comes to next is not being written. -/
def State.Undisturbed (s : State β) (n : ℕ) : Prop :=
  ∀ p ∈ s.flushes[n]?.bind (·.rest.head?), ∀ f ∈ s.mem.pages.lookup p,
  (s.mem.frames f).writeInFlight = false

/-- The change is stored, or flush `n` is going to store it unless a write fails. -/
def State.Covers (s : State (List α)) (n p : ℕ) (e : α) : Prop :=
  ∃ flush, s.flushes[n]? = some flush ∧ (flush = .failed ∨ e ∈ s.mem.storage p ∨
    (∃ c ∈ flush.claimed, c.page = p ∧ e ∈ c.data) ∨ p ∈ flush.rest ∧ e ∈ s.mem.last p)

/-- A page that nobody writes and that need not be written is stored. -/
theorem Sound.stored_of_idle {m : Memory β} {copies : Multiset (Copy β)} (hs : Sound m copies)
    (hidle : ∀ f ∈ m.pages.lookup p, ¬ (m.frames f).Claimable ∧
      (m.frames f).writeInFlight = false) : m.Stored p := by
  have hp := hs p
  generalize copies.filter (·.page = p) = w at hp
  cases hp with
  | absent _ hstored => exact hstored
  | @resting f hshows hrest hclean =>
    refine hclean (Bool.eq_false_iff.mpr fun hdirty => ?_)
    exact (hidle f hshows.lookup).1 ⟨hdirty, hrest⟩
  | writing hshows hbusy => exact absurd ((hidle _ hshows.lookup).2.symm.trans hbusy) Bool.false_ne_true

/-- A flush that visits all pages of the pool covers what is on them. -/
theorem covers_flush (h : Inv s) {order : List ℕ} (horder : ∀ q ∈ s.mem.pages.keys, q ∈ order)
    (hs : step s (.flush [] order) = some s') (he : e ∈ s.mem.last p) :
    s'.Covers s.flushes.length p e := by
  cases hs
  refine ⟨.collecting order [], by simp, .inr ?_⟩
  cases hlookup : s.mem.pages.lookup p with
  | none =>
    left
    have hstored := (h.sound p).stored hlookup
    rwa [hstored.1]
  | some f => exact .inr (.inr ⟨horder p (AList.lookup_isSome.mp (by simp [hlookup])), he⟩)

theorem State.Covers.stored (hc : s.Covers n p e) (hn : s.flushes[n]? = some .ended) :
    e ∈ s.mem.storage p := by
  obtain ⟨flush, hflush, hc⟩ := hc
  cases hn.symm.trans hflush
  rcases hc with hc | hc | ⟨c, hc, -⟩ | ⟨hc, -⟩
  · cases hc
  · exact hc
  · cases hc
  · cases hc

theorem flushes_look (s : State β) (n p left : ℕ) : (s.look n p left).flushes = s.flushes := by
  cases left with
  | zero => rfl
  | succ left =>
    cases hhand : s.hand with
    | nil => simp only [State.look, hhand]; rfl
    | cons victim hand =>
      simp only [State.look, hhand]
      cases s.mem.pages.lookup victim with
      | none => rfl
      | some f =>
        dsimp only
        split_ifs <;> rfl

/-- Every step but its own leaves a flush where it is. -/
theorem flushes_of_step {s s' : State β} {label : Label β} {flush : Flush β}
    (hs : step s label = some s') (hn : s.flushes[n]? = some flush) (hvisit : label ≠ .visit n)
    (hwrote : ∀ failed, label ≠ .wrote n failed) : s'.flushes[n]? = some flush := by
  have hset (m : ℕ) (hm : m ≠ n) (next : Flush β) : (s.flushes.set m next)[n]? = some flush := by
    rwa [getElem?_set_ne hm]
  cases label with
  | get p => cases hs; cases s.mem.pages.lookup p <;> exact hn
  | advance m =>
    obtain ⟨call, -, hs⟩ := bind_eq_some_iff.mp hs
    cases call with
    | missed | inserted => obtain ⟨-, rfl⟩ := of_guard hs; exact hn
    | locked p => cases hs; cases s.mem.pages.lookup p <;> exact hn
    | absent =>
      simp only [State.advance] at hs
      split_ifs at hs <;> cases hs <;> exact hn
    | evicting p left choice =>
      cases choice with
      | looking => cases hs; rwa [flushes_look]
      | writing => cases hs
      | removing => cases hs; exact hn
    | read | pushed => cases hs; exact hn
    | reading | holds | ended => cases hs
  | read m success | modify m data | drop m =>
    simp only [step] at hs
    split at hs
    case h_2 => cases hs
    case h_1 => cases hs; exact hn
  | evicted m failed =>
    obtain ⟨call, -, hs⟩ := bind_eq_some_iff.mp hs
    unfold State.evicted at hs
    split at hs
    case h_2 => cases hs
    case h_1 =>
      cases hs
      cases failed with
      | some bytes => exact hn
      | none => dsimp only; split_ifs <;> exact hn
  | flush | flushPages => cases hs; exact (getElem?_append_left (List.getElem?_eq_some_iff.mp hn).1).trans hn
  | visit m =>
    have hm : m ≠ n := fun heq => hvisit (heq ▸ rfl)
    obtain ⟨old, -, hs⟩ := bind_eq_some_iff.mp hs
    obtain ⟨next, hv⟩ := exists_visited hs
    rw [hv.flushes]
    exact hset m hm next
  | wrote m failed =>
    have hm : m ≠ n := fun heq => hwrote failed (heq ▸ rfl)
    obtain ⟨old, -, hs⟩ := bind_eq_some_iff.mp hs
    obtain ⟨copy, rest, next, -, -, -, rfl⟩ := exists_afterWrite hs
    cases failed <;> exact hset m hm _
  | tear p bytes => obtain ⟨-, rfl⟩ := of_guard hs; exact hn

/-- **What a flush covers stays covered**, while it finds no page whose write by somebody else is in
flight. -/
theorem State.Covers.step (h : Inv s) (hgrows : Grows s s') (hs : step s label = some s')
    (hfree : label = .visit n → s.Undisturbed n) (hc : s.Covers n p e) : s'.Covers n p e := by
  obtain ⟨flush, hn, hc⟩ := hc
  by_cases hown : label = .visit n ∨ ∃ failed, label = .wrote n failed
  · have hlt := (List.getElem?_eq_some_iff.mp hn).1
    rcases hown with rfl | ⟨failed, rfl⟩
    · obtain ⟨_, hn', hs⟩ := bind_eq_some_iff.mp hs
      cases hn.symm.trans hn'
      obtain ⟨next, hv⟩ := exists_visited hs
      refine ⟨next, by rw [hv.flushes, getElem?_set_self hlt], .inr ?_⟩
      rw [hv.storage, hv.last]
      rcases hc with rfl | hc | ⟨c, hc, hcp⟩ | ⟨hrest, he⟩
      · nomatch hs
      · exact .inl hc
      · exact .inr (.inl ⟨c, hv.kept c hc, hcp⟩)
      · obtain hrest | ⟨hhead, hcase⟩ := hv.rest p hrest
        · exact .inr (.inr ⟨hrest, he⟩)
        · have hidle : ∀ f ∈ s.mem.pages.lookup p, (s.mem.frames f).writeInFlight = false :=
            hfree rfl p (mem_def.mpr (bind_eq_some_iff.mpr ⟨flush, hn, hhead⟩))
          obtain hnone | ⟨f, hlookup, hcopy⟩ := hcase
          · have hstored := h.sound.stored_of_idle fun f hf => ⟨hnone f hf, hidle f hf⟩
            exact .inl (hstored.1 ▸ he)
          · refine .inr (.inl ⟨_, hcopy, rfl, ?_⟩)
            have hdata : (s.mem.copy p f).data = s.mem.last p := (h.sound.shows hlookup).data
            rwa [hdata]
    · obtain ⟨_, hn', hs⟩ := bind_eq_some_iff.mp hs
      cases hn.symm.trans hn'
      obtain ⟨copy, rest, next, hclaimed, hnext, hrest, rfl⟩ := exists_afterWrite hs
      cases failed with
      | some bytes => exact ⟨.failed, getElem?_set_self hlt, .inl rfl⟩
      | none =>
        refine ⟨next, getElem?_set_self hlt, .inr ?_⟩
        rcases hc with rfl | hc | ⟨c, hc, rfl, he⟩ | ⟨hmem, -⟩
        · nomatch hclaimed
        · exact .inl (hgrows.storage p hc)
        · rw [hclaimed] at hc
          obtain rfl | hc := mem_cons.mp hc
          · left
            have hstorage : (s.afterWrite n c rest next none).mem.storage =
              update s.mem.storage c.page c.data := storage_finish ..
            rwa [hstorage, update_self]
          · exact .inr (.inl ⟨c, hnext ▸ hc, rfl, he⟩)
        · simp [hrest] at hmem
  · rw [not_or, not_exists] at hown
    refine ⟨flush, flushes_of_step hs hn hown.1 hown.2, ?_⟩
    exact hc.imp_right (Or.imp (hgrows.storage p ·) (Or.imp_right (And.imp_right (hgrows.last p ·))))

end Growing

end RTsql.Storage.BufferPool
