import RTsql.Storage.BufferPool

/-!
# No modification is lost

While evictions only remove pages that can be removed, every guard shows the last modification of
its page, and the stored page is the last modification as soon as that was written
(`pool_keeps_modifications`).

For each page there are three situations (`Held`): it is not in the pool and stored; it has a frame
and nobody writes it; or it has a frame and exactly one copy of it is on its way to storage. -/

namespace RTsql.Storage.BufferPool

open List RTsql.Library Memory Option
open Multiset (coe_add coe_nil cons_add cons_coe mem_cons_self)

universe u

variable {β α : Type u} {m m' m'' : Memory β} {p q f : ℕ} {c copy : Copy β}
  {w R copies copies' : Multiset (Copy β)} {call : Call β} {g : Frame β → Frame β}

/-! ### One page -/

namespace Memory

/-- The stored page is its last modification, and that was written. -/
def Stored (m : Memory β) (p : ℕ) : Prop := m.storage p = m.last p ∧ m.written p = m.mods p

/-- The page has the frame, which shows its last modification. -/
structure Shows (m : Memory β) (p f : ℕ) : Prop where
  lookup : m.pages.lookup p = some f
  lt : f < m.next
  id : (m.frames f).id = p
  data : (m.frames f).data = m.last p

/-- The two agree about the page, apart from guards and the clock. -/
structure Agree (m m' : Memory β) (p : ℕ) : Prop where
  lookup : m'.pages.lookup p = m.pages.lookup p
  storage : m'.storage p = m.storage p
  last : m'.last p = m.last p
  mods : m'.mods p = m.mods p
  written : m'.written p = m.written p
  next : m.next ≤ m'.next
  id : ∀ f, m.Shows p f → (m'.frames f).id = (m.frames f).id
  data : ∀ f, m.Shows p f → (m'.frames f).data = (m.frames f).data
  dirty : ∀ f, m.Shows p f → (m'.frames f).dirty = (m.frames f).dirty
  writeInFlight : ∀ f, m.Shows p f → (m'.frames f).writeInFlight = (m.frames f).writeInFlight

end Memory

/-- What is known of a page of which the copies `w` are being written. -/
inductive Held (m : Memory β) (p : ℕ) : Multiset (Copy β) → Prop where
  | absent (hlookup : m.pages.lookup p = none) (hstored : m.Stored p) : Held m p 0
  | resting {f : ℕ} (hshows : m.Shows p f) (hrest : (m.frames f).writeInFlight = false)
      (hclean : (m.frames f).dirty = false → m.Stored p)
      (hdirty : (m.frames f).dirty = true → m.written p < m.mods p) : Held m p 0
  | writing {f : ℕ} {c : Copy β} (hshows : m.Shows p f) (hbusy : (m.frames f).writeInFlight = true)
      (hnew : m.written p < c.mods)
      (hclean : (m.frames f).dirty = false → c.data = m.last p ∧ c.mods = m.mods p)
      (hdirty : (m.frames f).dirty = true → c.mods < m.mods p) : Held m p {c}

/-- The frame of the page stays. -/
theorem Memory.Agree.of_frames (hlookup : m'.pages.lookup p = m.pages.lookup p)
    (hstorage : m'.storage p = m.storage p)
    (hlast : m'.last p = m.last p) (hmods : m'.mods p = m.mods p) (hwritten : m'.written p = m.written p)
    (hnext : m.next ≤ m'.next) (hframes : ∀ f, m.Shows p f → m'.frames f = m.frames f) :
    m.Agree m' p := by
  refine ⟨hlookup, hstorage, hlast, hmods, hwritten, hnext, ?_, ?_, ?_, ?_⟩ <;>
  · intro f hf
    rw [hframes f hf]

theorem Memory.Agree.shows (h : m.Agree m' p) (hs : m.Shows p f) : m'.Shows p f where
  lookup := h.lookup.trans hs.lookup
  lt := hs.lt.trans_le h.next
  id := (h.id f hs).trans hs.id
  data := by rw [h.data f hs, h.last, hs.data]

theorem Memory.Agree.stored (h : m.Agree m' p) (hs : m.Stored p) : m'.Stored p := by
  rwa [Memory.Stored, h.storage, h.last, h.written, h.mods]

theorem Held.congr (hp : Held m p w) (h : m.Agree m' p) : Held m' p w := by
  cases hp with
  | absent hlookup hstored => exact .absent (h.lookup.trans hlookup) (h.stored hstored)
  | resting hs hrest hclean hdirty =>
    refine .resting (h.shows hs) (by rw [h.writeInFlight _ hs, hrest]) ?_ ?_
    · exact fun hd => h.stored (hclean (by rwa [h.dirty _ hs] at hd))
    · rwa [h.dirty _ hs, h.written, h.mods]
  | writing hs hbusy hnew hclean hdirty =>
    refine .writing (h.shows hs) (by rw [h.writeInFlight _ hs, hbusy]) (by rwa [h.written]) ?_ ?_
    · rwa [h.dirty _ hs, h.last, h.mods]
    · rwa [h.dirty _ hs, h.mods]

theorem Held.shows (hp : Held m p w) (hlookup : m.pages.lookup p = some f) : m.Shows p f := by
  cases hp with
  | absent hnone => simp [hnone] at hlookup
  | resting hs | writing hs =>
    cases hs.lookup.symm.trans hlookup
    exact hs

theorem Held.stored (hp : Held m p w) (hlookup : m.pages.lookup p = none) : m.Stored p := by
  cases hp with
  | absent _ hstored => exact hstored
  | resting hs | writing hs => simp [hs.lookup] at hlookup

/-- A page that is being written is in the pool. -/
theorem Held.of_cons (hp : Held m p (c ::ₘ w)) : w = 0 ∧ ∃ f, m.Shows p f ∧
    (m.frames f).writeInFlight = true ∧
    m.written p < c.mods ∧ ((m.frames f).dirty = false → c.data = m.last p ∧ c.mods = m.mods p) ∧
      ((m.frames f).dirty = true → c.mods < m.mods p) := by
  generalize hw : c ::ₘ w = v at hp
  cases hp with
  | absent | resting => exact absurd hw Multiset.cons_ne_zero
  | @writing f c' hs hbusy hnew hclean hdirty =>
    obtain ⟨rfl, rfl⟩ := (Multiset.singleton_eq_cons_iff _).mp hw.symm
    exact ⟨rfl, f, hs, hbusy, hnew, hclean, hdirty⟩

/-- A page whose last modification was written is stored. -/
theorem Held.stored_of_written (hp : Held m p w) (hwritten : m.written p = m.mods p) : m.Stored p := by
  cases hp with
  | absent _ hstored => exact hstored
  | @resting f _ _ hclean hdirty =>
    cases hcase : (m.frames f).dirty with
    | false => exact hclean hcase
    | true => exact absurd hwritten (hdirty hcase).ne
  | @writing f c _ _ hnew hclean hdirty =>
    -- The copy is newer than what is stored, and no newer than the page.
    cases hcase : (m.frames f).dirty with
    | false => exact absurd hwritten (hnew.trans_eq (hclean hcase).2).ne
    | true => exact absurd hwritten (hnew.trans (hdirty hcase)).ne

/-- Any other page is in the pool. -/
theorem Held.exists_shows (hp : Held m p w) (hwritten : m.written p ≠ m.mods p) : ∃ f, m.Shows p f := by
  cases hp with
  | absent _ hstored => exact absurd hstored.2 hwritten
  | resting hs | writing hs => exact ⟨_, hs⟩

/-! ### All pages -/

/-- Every page is held, with those of the copies that are its own. -/
def Sound (m : Memory β) (copies : Multiset (Copy β)) : Prop :=
    ∀ p, Held m p (copies.filter (·.page = p))

/-- Something happens to the page `p`. -/
theorem Sound.of_page (hs : Sound m copies) (p : ℕ) (hother : ∀ q, q ≠ p → m.Agree m' q)
    (hcopies : ∀ q, q ≠ p → copies'.filter (·.page = q) = copies.filter (·.page = q))
    (hp : Held m' p (copies'.filter (·.page = p))) : Sound m' copies' := by
  intro q
  by_cases hq : q = p
  · rwa [hq]
  · rw [hcopies q hq]
    exact (hs q).congr (hother q hq)

theorem Sound.congr (hs : Sound m R) (h : ∀ p, m.Agree m' p) : Sound m' R := fun p => (hs p).congr (h p)

theorem Sound.shows (hs : Sound m R) (hlookup : m.pages.lookup p = some f) : m.Shows p f :=
    (hs p).shows hlookup

/-- The copy is not of another page. -/
theorem filter_cons_of_ne (R : Multiset (Copy β)) (hq : q ≠ c.page) :
    (c ::ₘ R).filter (·.page = q) = R.filter (·.page = q) :=
  Multiset.filter_cons_of_neg _ hq.symm

theorem filter_cons_self (c : Copy β) (R : Multiset (Copy β)) :
    (c ::ₘ R).filter (·.page = c.page) = c ::ₘ R.filter (·.page = c.page) :=
  Multiset.filter_cons_of_pos _ rfl

/-- A frame belongs to one page. -/
theorem Memory.Shows.ne {g : ℕ} (hp : m.Shows p f) (hq : m.Shows q g) (hne : q ≠ p) : g ≠ f := by
  rintro rfl
  exact hne (hq.id.symm.trans hp.id)

theorem Memory.Shows.agree_change (hp : m.Shows p f) (g : Frame β → Frame β) (hne : q ≠ p) :
    m.Agree (m.change f g) q :=
  .of_frames rfl rfl rfl rfl rfl le_rfl fun g hg => by simp [change, hp.ne hg hne]

/-- Guards and the clock do not matter. -/
theorem Sound.touch (hs : Sound m R) (f : ℕ) (hg : ∀ fr, (g fr).id = fr.id ∧
    (g fr).data = fr.data ∧ (g fr).dirty = fr.dirty ∧ (g fr).writeInFlight = fr.writeInFlight) :
    Sound (m.change f g) R := by
  refine hs.congr fun p => ⟨rfl, rfl, rfl, rfl, rfl, le_rfl, ?_, ?_, ?_, ?_⟩ <;>
  · intro h _
    by_cases hh : h = f <;> simp [change, hh, hg]

@[simp] theorem frames_change (m : Memory β) (f : ℕ) (g : Frame β → Frame β) :
    (m.change f g).frames f = g (m.frames f) := by
  simp [change]

theorem Memory.Shows.change (hp : m.Shows p f) (hid : ∀ fr, (g fr).id = fr.id)
    (hdata : ∀ fr, (g fr).data = fr.data) : (m.change f g).Shows p f where
  lookup := hp.lookup
  lt := hp.lt
  id := by rw [frames_change, hid, hp.id]
  data := by rw [frames_change, hdata]; exact hp.data

theorem Sound.modify (hs : Sound m R) (hlookup : m.pages.lookup p = some f) (data : β) :
    Sound (m.modify p f data) R := by
  have hp := hs.shows hlookup
  have hagree (q : ℕ) (hq : q ≠ p) : m.Agree (m.modify p f data) q :=
    { hp.agree_change (Frame.modify data) hq with
      last := by simp [Memory.modify, hq]
      mods := by simp [Memory.modify, hq] }
  refine hs.of_page p hagree (fun _ _ => rfl) ?_
  have hp' : (m.modify p f data).Shows p f :=
    ⟨hlookup, hp.lt, by simp [Memory.modify, Memory.change, Frame.modify, hp.id],
      by simp [Memory.modify, Memory.change, Frame.modify]⟩
  have hdirty : ((m.modify p f data).frames f).dirty = true := by
    simp [Memory.modify, Memory.change, Frame.modify]
  have hbusy : ((m.modify p f data).frames f).writeInFlight = (m.frames f).writeInFlight := by
    simp [Memory.modify, Memory.change, Frame.modify]
  have hmods : (m.modify p f data).mods p = m.mods p + 1 := by simp [Memory.modify]
  have hwritten : (m.modify p f data).written p = m.written p := rfl
  have hlt {k : ℕ} (hclean : (m.frames f).dirty = false → k ≤ m.mods p)
    (hd : (m.frames f).dirty = true → k ≤ m.mods p) :
      k < (m.modify p f data).mods p := by
    rw [hmods]
    cases hcase : (m.frames f).dirty with
    | false => exact Nat.lt_succ_of_le (hclean hcase)
    | true => exact Nat.lt_succ_of_le (hd hcase)
  have hold := hs p
  generalize R.filter (·.page = p) = w at hold ⊢
  cases hold with
  | absent hnone => simp [hnone] at hlookup
  | @resting g hs' hrest hclean hd =>
    cases hs'.lookup.symm.trans hlookup
    exact .resting hp' (hbusy.trans hrest) (fun h => by simp [hdirty] at h) fun _ =>
      hlt (fun h => (hclean h).2.le) fun h => (hd h).le
  | @writing g c hs' hb hnew hclean hd =>
    cases hs'.lookup.symm.trans hlookup
    exact .writing hp' (hbusy.trans hb) (hwritten ▸ hnew) (fun h => by simp [hdirty] at h) fun _ =>
      hlt (fun h => (hclean h).2.le) fun h => (hd h).le

theorem Sound.claim (hs : Sound m R) (hlookup : m.pages.lookup p = some f)
    (hc : (m.frames f).Claimable) : Sound (m.change f Frame.claim) (m.copy p f ::ₘ R) := by
  have hp := hs.shows hlookup
  refine hs.of_page p (fun q hq => hp.agree_change _ hq) (fun q hq => filter_cons_of_ne R hq) ?_
  have hold := hs p
  have hcopies : (m.copy p f ::ₘ R).filter (·.page = p) = m.copy p f ::ₘ R.filter (·.page = p) :=
    filter_cons_self (m.copy p f) R
  rw [hcopies]
  generalize R.filter (·.page = p) = w at hold ⊢
  cases hold with
  | absent hnone => simp [hnone] at hlookup
  | resting hs' _ _ hdirty =>
    cases hs'.lookup.symm.trans hlookup
    exact .writing (hp.change (fun _ => rfl) fun _ => rfl) (by simp [Frame.claim]) (hdirty hc.1)
      (fun _ => ⟨hp.data, rfl⟩) fun h => by simp [Frame.claim] at h
  | writing hs' hbusy =>
    cases hs'.lookup.symm.trans hlookup
    exact absurd (hc.2.symm.trans hbusy) Bool.false_ne_true

/-- The write of a copy has returned. -/
theorem Sound.wrote (hs : Sound m (c ::ₘ R)) (hlookup : m.pages.lookup c.page = some f) :
    Sound ((m.store c).change f (Frame.finish true)) R := by
  have hp := hs.shows hlookup
  have hagree (q : ℕ) (hq : q ≠ c.page) : m.Agree ((m.store c).change f (Frame.finish true)) q :=
    { hp.agree_change (Frame.finish true) hq with
      storage := by simp [change, store, hq]
      written := by simp [change, store, hq] }
  refine hs.of_page c.page hagree (fun q hq => (filter_cons_of_ne R hq).symm) ?_
  have hold := hs c.page
  rw [filter_cons_self] at hold
  obtain ⟨hzero, g, hs', -, -, hclean, hdirty⟩ := hold.of_cons
  cases hs'.lookup.symm.trans hlookup
  rw [hzero]
  have hp' : ((m.store c).change f (Frame.finish true)).Shows c.page f :=
    ⟨hp.lookup, hp.lt, by rw [frames_change]; exact hp.id, by rw [frames_change]; exact hp.data⟩
  refine .resting hp' (by simp [Frame.finish]) (fun hd => ?_) fun hd => ?_
  · have hd' : (m.frames f).dirty = false := by simpa [Frame.finish, store] using hd
    obtain ⟨hdata, hmods⟩ := hclean hd'
    exact ⟨by simpa [change, store] using hdata, by simpa [change, store] using hmods⟩
  · have hd' : (m.frames f).dirty = true := by simpa [Frame.finish, store] using hd
    simpa [change, store] using hdirty hd'

/-- What is being written is not stored. -/
theorem Sound.tear (hs : Sound m R) (hc : c ∈ R) (bytes : β) : Sound (m.tear c.page bytes) R := by
  have hagree (q : ℕ) (hq : q ≠ c.page) : m.Agree (m.tear c.page bytes) q :=
    .of_frames rfl (by simp [Memory.tear, hq]) rfl rfl rfl le_rfl fun _ _ => rfl
  obtain ⟨R, rfl⟩ := Multiset.exists_cons_of_mem hc
  refine hs.of_page c.page hagree (fun _ _ => rfl) ?_
  have hold := hs c.page
  rw [filter_cons_self] at hold ⊢
  obtain ⟨hzero, g, hp, hbusy, hnew, hclean, hdirty⟩ := hold.of_cons
  rw [hzero]
  exact .writing { hp with } hbusy hnew hclean hdirty

/-- A copy is given up. -/
theorem Sound.giveUp (hs : Sound m (c ::ₘ R)) (hlookup : m.pages.lookup c.page = some f) :
    Sound (m.change f (Frame.finish false)) R := by
  have hp := hs.shows hlookup
  refine hs.of_page c.page (fun q hq => hp.agree_change _ hq)
    (fun q hq => (filter_cons_of_ne R hq).symm) ?_
  have hold := hs c.page
  rw [filter_cons_self] at hold
  obtain ⟨hzero, g, hs', -, hnew, hclean, hdirty⟩ := hold.of_cons
  cases hs'.lookup.symm.trans hlookup
  rw [hzero]
  refine .resting (hp.change (fun _ => rfl) fun _ => rfl) (by simp [Frame.finish])
    (fun hd => by simp [Frame.finish] at hd) fun _ => hnew.trans_le ?_
  cases hcase : (m.frames f).dirty with
  | false => exact (hclean hcase).2.le
  | true => exact (hdirty hcase).le

theorem Memory.agree_insert (m : Memory β) (data : β) (hne : q ≠ p) : m.Agree (m.insert p data) q :=
  .of_frames (by simp [insert, AList.lookup_insert_ne hne]) rfl rfl rfl rfl (Nat.le_succ _)
    fun _ hg => by simp [insert, hg.lt.ne]

theorem Sound.insert (hs : Sound m R) (hlookup : m.pages.lookup p = none) :
    Sound (m.insert p (m.last p)) R := by
  refine hs.of_page p (fun _ hq => m.agree_insert _ hq) (fun _ _ => rfl) ?_
  have hold := hs p
  generalize R.filter (·.page = p) = w at hold ⊢
  cases hold with
  | absent _ hstored =>
    exact .resting (f := m.next)
      ⟨by simp [Memory.insert], Nat.lt_succ_self _, by simp [Memory.insert, Frame.new],
      by simp [Memory.insert, Frame.new]⟩ (by simp [Memory.insert, Frame.new]) (fun _ => hstored)
      fun hd => by simp [Memory.insert, Frame.new] at hd
  | resting hs' | writing hs' => simp [hs'.lookup] at hlookup

/-- A clean frame that nobody writes is removed. -/
theorem Sound.remove (hs : Sound m R)
    (hclean : ∀ f ∈ m.pages.lookup p, (m.frames f).dirty = false ∧ (m.frames f).writeInFlight = false) :
    Sound (m.remove p) R := by
  have hagree (q : ℕ) (hq : q ≠ p) : m.Agree (m.remove p) q :=
    .of_frames (by simp [Memory.remove, AList.lookup_erase_ne hq]) rfl rfl rfl rfl le_rfl fun _ _ => rfl
  refine hs.of_page p hagree (fun _ _ => rfl) ?_
  have hold := hs p
  generalize R.filter (·.page = p) = w at hold ⊢
  have hnone : (m.remove p).pages.lookup p = none := by simp [Memory.remove]
  cases hold with
  | absent _ hstored => exact .absent hnone hstored
  | resting hs' _ hstored => exact .absent hnone (hstored (hclean _ hs'.lookup).1)
  | writing hs' hbusy => exact absurd ((hclean _ hs'.lookup).2.symm.trans hbusy) Bool.false_ne_true

/-- A page of which there is a copy is in the pool. -/
theorem Sound.lookup_of_mem (hs : Sound m R) (hc : c ∈ R) :
    ∃ f, m.pages.lookup c.page = some f ∧ (m.frames f).writeInFlight = true := by
  obtain ⟨R, rfl⟩ := Multiset.exists_cons_of_mem hc
  have hold := hs c.page
  rw [filter_cons_self] at hold
  obtain ⟨-, f, hp, hbusy, -⟩ := hold.of_cons
  exact ⟨f, hp.lookup, hbusy⟩

theorem finish_of_lookup {success : Bool} (hlookup : m.pages.lookup p = some f) :
    m.finish p success = m.change f (Frame.finish success) := by
  simp [finish, hlookup]

theorem Sound.finish (hs : Sound m (c ::ₘ R)) : Sound ((m.store c).finish c.page true) R := by
  obtain ⟨f, hlookup, -⟩ := hs.lookup_of_mem (mem_cons_self c R)
  rw [finish_of_lookup (show (m.store c).pages.lookup c.page = some f from hlookup)]
  exact hs.wrote hlookup

theorem Sound.restore {claimed : List (Copy β)} (hs : Sound m (claimed + R)) :
    Sound (m.restore claimed) R := by
  induction claimed generalizing m with
  | nil => rwa [coe_nil, zero_add] at hs
  | cons c claimed ih =>
    rw [← cons_coe, cons_add] at hs
    obtain ⟨f, hlookup, -⟩ := hs.lookup_of_mem (mem_cons_self c _)
    have hgive : Sound (m.finish c.page false) (claimed + R) := by
      rw [finish_of_lookup hlookup]
      exact hs.giveUp hlookup
    exact ih hgive

/-! ### The calls -/

/-- The pool holds what the call knows of it. -/
def Call.Fits (m : Memory β) : Call β → Prop
  | missed _ | locked _ | ended => True
  | absent p | reading p | evicting p _ .looking | evicting p _ (.removing _) => m.pages.lookup p = none
  | evicting p _ (.writing f copy) => m.pages.lookup p = none ∧ m.pages.lookup copy.page = some f
  | read p data => m.pages.lookup p = none ∧ data = m.last p
  | inserted p f | pushed p f | holds p f => m.pages.lookup p = some f

/-- The map has not changed. -/
structure SameMap (m m' : Memory β) : Prop where
  lookup : ∀ p, m'.pages.lookup p = m.pages.lookup p
  last : ∀ p, m.pages.lookup p = none → m'.last p = m.last p

theorem SameMap.refl (m : Memory β) : SameMap m m := ⟨fun _ => rfl, fun _ _ => rfl⟩

theorem SameMap.change (m : Memory β) (f : ℕ) (g : Frame β → Frame β) : SameMap m (m.change f g) :=
  ⟨fun _ => rfl, fun _ _ => rfl⟩

theorem SameMap.store (m : Memory β) (c : Copy β) : SameMap m (m.store c) :=
    ⟨fun _ => rfl, fun _ _ => rfl⟩

theorem SameMap.tear (m : Memory β) (p : ℕ) (bytes : β) : SameMap m (m.tear p bytes) :=
  ⟨fun _ => rfl, fun _ _ => rfl⟩

theorem SameMap.finish (m : Memory β) (p : ℕ) (success : Bool) : SameMap m (m.finish p success) := by
  unfold Memory.finish
  split
  · exact .change m _ _
  · exact .refl m

theorem SameMap.trans (h : SameMap m m') (h' : SameMap m' m'') : SameMap m m'' where
  lookup p := (h'.lookup p).trans (h.lookup p)
  last p hp := (h'.last p ((h.lookup p).trans hp)).trans (h.last p hp)

theorem SameMap.restore (m : Memory β) (claimed : List (Copy β)) : SameMap m (m.restore claimed) := by
  induction claimed generalizing m with
  | nil => exact .refl m
  | cons c claimed ih => exact (SameMap.finish m c.page false).trans (ih _)

/-- What the call knows of the pool: that the page it loads has no frame, and the frames of the
pages that it uses. -/
theorem Call.Fits.mono (h : call.Fits m)
    (hnone : ∀ q, call.lock = some q → m.pages.lookup q = none → m'.pages.lookup q = none ∧
      m'.last q = m.last q)
    (hsome : ∀ q f, call.uses = some (q, f) ∨ (∃ c ∈ call.claimed, c.page = q) →
      m.pages.lookup q = some f → m'.pages.lookup q = some f) : call.Fits m' := by
  cases call with
  | missed | locked | ended => trivial
  | absent p | reading p => exact (hnone p rfl h).1
  | inserted p f | pushed p f | holds p f => exact hsome p f (.inl rfl) h
  | read p data => exact ⟨(hnone p rfl h.1).1, h.2.trans (hnone p rfl h.1).2.symm⟩
  | evicting p left choice =>
    cases choice with
    | looking | removing => exact (hnone p rfl h).1
    | writing f copy => exact ⟨(hnone p rfl h.1).1, hsome _ f (.inr ⟨copy, mem_singleton_self _, rfl⟩) h.2⟩

theorem Call.Fits.congr (h : call.Fits m) (hsame : SameMap m m') : call.Fits m' :=
  h.mono (fun q _ hq => ⟨(hsame.lookup q).trans hq, hsame.last q hq⟩) fun q _ _ hq =>
  (hsame.lookup q).trans hq

/-- Another page gets a frame. -/
theorem Call.Fits.insert (h : call.Fits m) (hp : m.pages.lookup p = none) (data : β)
    (hlock : call.lock ≠ some p) : call.Fits (m.insert p data) := by
  refine h.mono (fun q hq hnone => ⟨?_, rfl⟩) fun q f _ hq => ?_
  · have hne : q ≠ p := fun heq => hlock (heq ▸ hq)
    simpa [Memory.insert, AList.lookup_insert_ne hne] using hnone
  · have hne : q ≠ p := by
      rintro rfl
      simp [hp] at hq
    simpa [Memory.insert, AList.lookup_insert_ne hne] using hq

/-- A page that the call does not use is removed. -/
theorem Call.Fits.remove (h : call.Fits m) (huses : ∀ f ∈ m.pages.lookup p, call.uses ≠ some (p, f))
    (hclaimed : ∀ c ∈ call.claimed, c.page ≠ p) : call.Fits (m.remove p) := by
  refine h.mono (fun q _ hq => ⟨?_, rfl⟩) fun q f huse hq => ?_
  · obtain rfl | hne := eq_or_ne q p
    · simp [remove]
    · simpa [Memory.remove, AList.lookup_erase_ne hne] using hq
  · have hne : q ≠ p := by
      rintro rfl
      rcases huse with huse | ⟨c, hc, heq⟩
      · exact huses f hq huse
      · exact hclaimed c hc heq
    simpa [Memory.remove, AList.lookup_erase_ne hne] using hq

/-! ### The invariant -/

structure Inv (s : State β) : Prop where
  sound : Sound s.mem s.copies
  fits : ∀ call ∈ s.calls, call.Fits s.mem
  /-- At most one call loads a page. -/
  locks : (s.calls.filterMap Call.lock).Nodup

/-- A list is one of its elements and the others. -/
theorem exists_perm_set {l : List α} {n : ℕ} {a : α} (h : l[n]? = some a) :
    ∃ rest, l ~ a :: rest ∧ ∀ b, l.set n b ~ b :: rest := by
  obtain ⟨hn, rfl⟩ := List.getElem?_eq_some_iff.mp h
  have hset (b : α) : l.set n b ~ b :: (l.take n ++ l.drop (n + 1)) := by
    rw [List.set_eq_take_append_cons_drop, if_pos hn]
    exact perm_middle
  exact ⟨_, (Perm.of_eq (set_getElem_self hn).symm).trans (hset _), hset⟩

theorem coe_flatMap_of_perm {l rest : List α} {a : α} (g : α → List (Copy β)) (h : l ~ a :: rest) :
    (l.flatMap g : Multiset (Copy β)) = g a + rest.flatMap g :=
  Multiset.coe_eq_coe.mpr (h.flatMap_right g)

variable {s s' : State β} {n left : ℕ} {flush next : Flush β} {old : Call β} {failed : Option β}
  {hand : List ℕ}

/-- A call takes a step, in which the memory becomes `m'`. -/
theorem Inv.goto (h : Inv s) (hn : s.calls[n]? = some old)
    (hsound : ∀ R, Sound s.mem (old.claimed + R) → Sound m' (call.claimed + R))
    (hothers : ∀ c ∈ s.calls, (∀ p, old.lock = some p → c.lock ≠ some p) → c.Fits s.mem → c.Fits m')
    (hfits : old.Fits s.mem → call.Fits m')
    (hlock : ∀ p, call.lock = some p → old.lock = some p ∨ ∀ c ∈ s.calls, c.lock ≠ some p) :
    Inv ⟨m', hand, s.capacity, s.calls.set n call, s.flushes⟩ := by
  obtain ⟨rest, hold, hnew⟩ := exists_perm_set hn
  have hmem : ∀ c ∈ rest, c ∈ s.calls := fun c hc => hold.mem_iff.mpr (mem_cons_of_mem _ hc)
  have hlocks : ((old :: rest).filterMap Call.lock).Nodup := (hold.filterMap _).nodup_iff.mp h.locks
  have hfree : ∀ c ∈ rest, ∀ p, old.lock = some p → c.lock ≠ some p := by
    intro c hc p hp hcp
    rw [filterMap_cons_some hp, nodup_cons] at hlocks
    exact hlocks.1 (mem_filterMap.mpr ⟨c, hc, hcp⟩)
  refine ⟨?_, fun c hc => ?_, ((hnew call).filterMap _).nodup_iff.mpr ?_⟩
  · have hs := h.sound
    rw [State.copies, ← coe_add, coe_flatMap_of_perm _ hold, add_assoc] at hs
    rw [State.copies, ← coe_add, coe_flatMap_of_perm _ (hnew call), add_assoc]
    exact hsound _ hs
  · obtain rfl | hc := mem_cons.mp ((hnew call).mem_iff.mp hc)
    · exact hfits (h.fits old (mem_of_getElem? hn))
    · exact hothers c (hmem c hc) (hfree c hc) (h.fits c (hmem c hc))
  · have hrest : (rest.filterMap Call.lock).Nodup := hlocks.sublist ((sublist_cons_self _ _).filterMap _)
    cases hcall : call.lock with
    | none => rwa [filterMap_cons_none hcall]
    | some p =>
      rw [filterMap_cons_some hcall, nodup_cons]
      refine ⟨fun hp => ?_, hrest⟩
      obtain ⟨c, hc, hcp⟩ := mem_filterMap.mp hp
      obtain hsame | hfresh := hlock p hcall
      · exact hfree c hc p hsame hcp
      · exact hfresh c (hmem c hc) hcp

/-- A call goes on, and the map stays. -/
theorem Inv.goto_same (h : Inv s) (hn : s.calls[n]? = some old)
    (hsame : SameMap s.mem m')
    (hsound : ∀ R, Sound s.mem (old.claimed + R) → Sound m' (call.claimed + R))
    (hfits : old.Fits s.mem → call.Fits s.mem) (hlock : ∀ p, call.lock = some p → old.lock = some p) :
    Inv ⟨m', hand, s.capacity, s.calls.set n call, s.flushes⟩ :=
  h.goto hn hsound (fun _ _ _ hc => hc.congr hsame) (fun ho => (hfits ho).congr hsame) fun p hp =>
  .inl (hlock p hp)

/-- The memory changes, and the map stays. -/
theorem Inv.with_mem (h : Inv s) (hsame : SameMap s.mem m') (hsound : Sound m' s.copies) :
    Inv { s with mem := m' } :=
  ⟨hsound, fun c hc => (h.fits c hc).congr hsame, h.locks⟩

/-- A new call. -/
theorem Inv.start (h : Inv s) (hfits : call.Fits s.mem) (hlock : call.lock = none)
    (hclaimed : call.claimed = []) : Inv { s with calls := s.calls ++ [call] } where
  sound := by simpa [State.copies, hclaimed] using h.sound
  fits c hc := by
    rw [mem_append, mem_singleton] at hc
    rcases hc with hc | rfl
    · exact h.fits c hc
    · exact hfits
  locks := by simpa [hlock] using h.locks

theorem Inv.gotoFlush {old : Flush β} (h : Inv s) (hn : s.flushes[n]? = some old)
    (hsame : SameMap s.mem m')
    (hsound : ∀ R, Sound s.mem (old.claimed + R) → Sound m' (flush.claimed + R)) :
    Inv ⟨m', s.hand, s.capacity, s.calls, s.flushes.set n flush⟩ := by
  obtain ⟨rest, hold, hnew⟩ := exists_perm_set hn
  refine ⟨?_, fun c hc => (h.fits c hc).congr hsame, h.locks⟩
  have hs := h.sound
  rw [State.copies, ← coe_add, coe_flatMap_of_perm _ hold, add_left_comm] at hs
  rw [State.copies, ← coe_add, coe_flatMap_of_perm _ (hnew flush), add_left_comm]
  exact hsound _ hs

/-! ### The steps -/

theorem sound_nil_add : Sound m (([] : List (Copy β)) + R) ↔ Sound m R := by
  rw [coe_nil, zero_add]

theorem sound_singleton_add : Sound m (([c] : List (Copy β)) + R) ↔ Sound m (c ::ₘ R) := by
  rw [Multiset.coe_singleton, Multiset.singleton_add]

variable (h : Inv s)

include h

theorem Inv.look (hn : s.calls[n]? = some (.evicting p left .looking)) : Inv (s.look n p left) := by
  have hlater (left : ℕ) (hand : List ℕ) :
      Inv ⟨s.mem, hand, s.capacity, s.calls.set n (.evicting p left .looking), s.flushes⟩ :=
    h.goto_same hn (.refl _) (fun _ => id) id fun _ => id
  have hended (hand : List ℕ) : Inv ⟨s.mem, hand, s.capacity, s.calls.set n .ended, s.flushes⟩ :=
    h.goto_same hn (.refl _) (fun _ => id) (fun _ => trivial) nofun
  cases left with
  | zero => exact hended _
  | succ left =>
    cases hhand : s.hand with
    | nil =>
      simp only [State.look, hhand]
      exact hended _
    | cons victim hand =>
      simp only [State.look, hhand]
      cases hlookup : s.mem.pages.lookup victim with
      | none => exact hlater _ _
      | some f =>
        dsimp only
        split_ifs with hused hclock hdirty
        · exact hlater _ _
        · exact (hlater left (hand ++ [victim])).with_mem (.change _ _ _)
            ((hlater left []).sound.touch f fun _ => ⟨rfl, rfl, rfl, rfl⟩)
        · refine h.goto_same hn (.change _ _ _) (fun R hR => ?_) (fun hp => ⟨hp, hlookup⟩) fun _ => id
          have hrest : (s.mem.frames f).writeInFlight = false := by simpa using (not_or.mp hused).2
          exact sound_singleton_add.mpr ((sound_nil_add.mp hR).claim hlookup ⟨hdirty, hrest⟩)
        · exact h.goto_same hn (.refl _) (fun _ => id) id fun _ => id

theorem Inv.advance (hn : s.calls[n]? = some call)
    (hok : Ok s (.advance n)) (hs : s.advance n call = some s') : Inv s' := by
  cases call with
  | missed p =>
    obtain ⟨hfree, rfl⟩ := of_guard hs
    refine h.goto hn (fun _ => id) (fun _ _ _ => id) (fun _ => trivial) fun q hq => .inr fun c hc => ?_
    obtain rfl : p = q := some.inj hq
    simpa using all_eq_true.mp hfree c hc
  | locked p =>
    cases hs
    cases hlookup : s.mem.pages.lookup p with
    | some f =>
      exact h.goto_same hn (.change _ _ _) (fun _ hR => hR.touch f fun _ => ⟨rfl, rfl, rfl, rfl⟩)
        (fun _ => hlookup) fun _ h => by cases h
    | none => exact h.goto_same hn (.refl _) (fun _ => id) (fun _ => hlookup) fun _ => id
  | absent p =>
    simp only [State.advance] at hs
    split_ifs at hs with hroom hhand
    · cases hs
      exact h.goto_same hn (.refl _) (fun _ => id) id fun _ => id
    · cases hs
      exact h.goto_same hn (.refl _) (fun _ => id) id fun _ => id
  | evicting p left choice =>
    cases choice with
    | looking =>
      cases hs
      exact h.look hn
    | writing => cases hs
    | removing victim =>
      cases hs
      have hok : s.Removable victim := by simpa [Ok, hn] using hok
      have hclean : ∀ f ∈ s.mem.pages.lookup victim,
          (s.mem.frames f).dirty = false ∧ (s.mem.frames f).writeInFlight = false :=
        fun f hf => ⟨(hok f hf).1, (hok f hf).2.1⟩
      have hfits : ∀ c ∈ s.calls, c.Fits s.mem → c.Fits (s.mem.remove victim) := by
        refine fun c hc hfits => hfits.remove (fun f hf => (hok f hf).2.2 c hc) fun copy hcopy heq => ?_
        -- A page that is being written is not clean.
        have hmem : copy ∈ s.copies := mem_append_left _ (mem_flatMap_of_mem hc hcopy)
        obtain ⟨f, hlookup, hbusy⟩ := h.sound.lookup_of_mem (Multiset.mem_coe.mpr hmem)
        exact absurd ((hclean f (heq ▸ hlookup)).2.symm.trans hbusy) Bool.false_ne_true
      refine h.goto hn (fun R hR => hR.remove hclean) (fun c hc _ => hfits c hc) ?_ fun q hq => .inl hq
      exact hfits (.evicting p left (.removing victim)) (mem_of_getElem? hn)
  | read p data =>
    cases hs
    obtain ⟨hlookup, rfl⟩ : s.mem.pages.lookup p = none ∧ data = s.mem.last p :=
      h.fits _ (mem_of_getElem? hn)
    refine h.goto hn (fun R hR => hR.insert hlookup)
      (fun c _ hlock hc => hc.insert hlookup _ (hlock p rfl)) ?_
      fun q hq => .inl hq
    simp [Call.Fits, Memory.insert]
  | inserted p f =>
    obtain ⟨-, rfl⟩ := of_guard hs
    exact h.goto_same hn (.refl _) (fun _ => id) id fun _ => id
  | pushed p f =>
    cases hs
    exact h.goto_same hn (.change _ _ _)
      (fun _ hR => hR.touch f fun _ => ⟨rfl, rfl, rfl, rfl⟩) id fun _ h => by cases h
  | reading | holds | ended => cases hs

theorem Inv.evicted (hn : s.calls[n]? = some call) (hs : s.evicted n failed call = some s') :
    Inv s' := by
  unfold State.evicted at hs
  split at hs
  case h_2 => nomatch hs
  case h_1 p left f copy =>
    cases hs
    obtain ⟨hp, hlookup⟩ : s.mem.pages.lookup p = none ∧ s.mem.pages.lookup copy.page = some f :=
      h.fits _ (mem_of_getElem? hn)
    cases failed with
    | some bytes =>
      refine h.goto_same hn ⟨fun _ => rfl, fun _ _ => rfl⟩ (fun R hR => ?_) (fun _ => trivial) nofun
      have htear := (sound_singleton_add.mp hR).tear (mem_cons_self copy R) bytes
      exact sound_nil_add.mpr (htear.giveUp hlookup)
    | none =>
      have hsound (R : Multiset (Copy β))
          (hR : Sound s.mem ((Call.evicting p left (.writing f copy)).claimed + R)) :
          Sound ((s.mem.store copy).change f (Frame.finish true)) (([] : List (Copy β)) + R) :=
        sound_nil_add.mpr ((sound_singleton_add.mp hR).wrote hlookup)
      dsimp only
      split_ifs with hdirty
      · exact h.goto_same hn ⟨fun _ => rfl, fun _ _ => rfl⟩ hsound (fun _ => hp) fun _ => id
      · exact h.goto_same hn ⟨fun _ => rfl, fun _ _ => rfl⟩ hsound (fun _ => hp) fun _ => id

theorem Inv.visit (hn : s.flushes[n]? = some flush) (hs : s.visit n flush = some s') : Inv s' := by
  cases flush with
  | collecting rest claimed =>
    cases rest with
    | nil =>
      cases hs
      exact h.gotoFlush hn (.refl _) fun _ => id
    | cons p rest =>
      cases hs
      have hskip : Inv (s.gotoFlush n (.collecting rest claimed)) := h.gotoFlush hn (.refl _) fun _ => id
      cases hlookup : s.mem.pages.lookup p with
      | none => exact hskip
      | some f =>
        dsimp only
        split_ifs with hc
        · refine h.gotoFlush hn (.change _ _ _) fun R hR => ?_
          have hclaim := hR.claim hlookup hc
          rwa [← Multiset.add_cons, ← Multiset.singleton_add, ← add_assoc] at hclaim
        · exact hskip
  | writing claimed =>
    cases claimed with
    | nil =>
      cases hs
      exact h.gotoFlush hn (.refl _) fun _ => id
    | cons => nomatch hs
  | visiting rest =>
    cases rest with
    | nil =>
      cases hs
      exact h.gotoFlush hn (.refl _) fun _ => id
    | cons p rest =>
      cases hs
      have hskip : Inv (s.gotoFlush n (.visiting rest)) := h.gotoFlush hn (.refl _) fun _ => id
      cases hlookup : s.mem.pages.lookup p with
      | none => exact hskip
      | some f =>
        dsimp only
        split_ifs with hc
        · refine h.gotoFlush hn (.change _ _ _) fun R hR => ?_
          exact sound_singleton_add.mpr ((sound_nil_add.mp hR).claim hlookup hc)
        · exact hskip
  | writingOne | ended | failed => nomatch hs

theorem Inv.afterWrite {old : Flush β} {rest : List (Copy β)}
    (hn : s.flushes[n]? = some old) (hold : old.claimed = copy :: rest) (hnext : next.claimed = rest)
    (failed : Option β) : Inv (s.afterWrite n copy rest next failed) := by
  cases failed with
  | none =>
    refine h.gotoFlush hn ?_ fun R hR => ?_
    · exact (SameMap.store s.mem copy).trans (.finish _ copy.page true)
    · rw [hold, ← cons_coe, cons_add] at hR
      rw [hnext]
      exact hR.finish
  | some bytes =>
    refine h.gotoFlush hn ?_ fun R hR => sound_nil_add.mpr ?_
    · exact (SameMap.tear s.mem copy.page bytes).trans (.restore _ (copy :: rest))
    · rw [hold] at hR
      exact (hR.tear (by simp) bytes).restore

theorem Inv.wrote (hn : s.flushes[n]? = some flush) (hs : s.wrote n failed flush = some s') :
    Inv s' := by
  unfold State.wrote at hs
  split at hs
  · cases hs
    exact h.afterWrite hn rfl rfl failed
  · cases hs
    exact h.afterWrite hn rfl rfl failed
  · nomatch hs

omit h

theorem inv_step (s : State β) (label : Label β) (s' : State β) (h : Inv s) (hok : Ok s label)
    (hs : step s label = some s') : Inv s' := by
  cases label with
  | get p =>
    cases hs
    cases hlookup : s.mem.pages.lookup p with
    | none => exact h.start trivial rfl rfl
    | some f =>
      have hreferenced : Inv (s.change f Frame.reference) :=
        h.with_mem (.change _ _ _) (h.sound.touch f fun _ => ⟨rfl, rfl, rfl, rfl⟩)
      exact hreferenced.start hlookup rfl rfl
  | advance n =>
    obtain ⟨call, hn, hs⟩ := bind_eq_some_iff.mp hs
    exact h.advance hn hok hs
  | read n success =>
    simp only [step] at hs
    split at hs
    case h_2 => nomatch hs
    case h_1 p hn =>
      cases hs
      cases success with
      | false => exact h.goto_same hn (.refl _) (fun _ => id) (fun _ => trivial) nofun
      | true =>
        refine h.goto_same hn (.refl _) (fun _ => id) (fun hp => ⟨hp, ?_⟩) fun _ => id
        exact ((h.sound p).stored hp).1
  | evicted n failed =>
    obtain ⟨call, hn, hs⟩ := bind_eq_some_iff.mp hs
    exact h.evicted hn hs
  | modify n data =>
    simp only [step] at hs
    split at hs
    case h_2 => nomatch hs
    case h_1 p f hn =>
      cases hs
      have hlookup : s.mem.pages.lookup p = some f := h.fits _ (mem_of_getElem? hn)
      refine h.with_mem ⟨fun _ => rfl, fun q hq => ?_⟩ (h.sound.modify hlookup data)
      have hne : q ≠ p := by
        rintro rfl
        simp [hq] at hlookup
      simp [Memory.modify, hne]
  | drop n =>
    simp only [step] at hs
    split at hs
    case h_2 => nomatch hs
    case h_1 p f hn =>
      cases hs
      exact h.goto_same hn (.change _ _ _) (fun _ hR => hR.touch f fun _ => ⟨rfl, rfl, rfl, rfl⟩)
        (fun _ => trivial) nofun
  | flush exclude order | flushPages order =>
    cases hs
    exact ⟨by simpa [State.copies, Flush.claimed] using h.sound, h.fits, h.locks⟩
  | visit n =>
    obtain ⟨flush, hn, hs⟩ := bind_eq_some_iff.mp hs
    exact h.visit hn hs
  | wrote n failed =>
    obtain ⟨flush, hn, hs⟩ := bind_eq_some_iff.mp hs
    exact h.wrote hn hs
  | tear p bytes =>
    obtain ⟨hp, rfl⟩ := of_guard hs
    obtain ⟨c, hc, rfl⟩ := mem_map.mp hp
    exact h.with_mem ⟨fun _ => rfl, fun _ _ => rfl⟩ (h.sound.tear (Multiset.mem_coe.mpr hc) bytes)

theorem inv_init (capacity : ℕ) (contents : ℕ → β) : Inv (init capacity contents) where
  sound _ := .absent rfl ⟨rfl, rfl⟩
  fits := nofun
  locks := nodup_nil

/-! ### The main result -/

/-- **No modification is lost.** In every run in which evictions only remove pages that can be
removed, every guard belongs to the frame in the pool and shows the last modification of its page; a
page whose last modification was written is stored so; and every other page is in the pool with its
last modification. -/
theorem pool_keeps_modifications (capacity : ℕ) (contents : ℕ → β) (labels : List (Label β))
    (s : State β) (hok : Guarded Ok step (init capacity contents) labels)
    (hrun : run step (init capacity contents) labels = some s) :
    (∀ p f, .holds p f ∈ s.calls → s.mem.pages.lookup p = some f ∧ (s.mem.frames f).data =
      s.mem.last p) ∧ (∀ p, s.mem.written p = s.mem.mods p → s.mem.storage p = s.mem.last p) ∧
      ∀ p, s.mem.written p ≠ s.mem.mods p →
        ∃ f, s.mem.pages.lookup p = some f ∧ (s.mem.frames f).data = s.mem.last p := by
  have h : Inv s := run_invariant inv_step (inv_init capacity contents) hok hrun
  refine ⟨fun p f hp => ?_, fun p hp => ?_, fun p hp => ?_⟩
  · have hlookup : s.mem.pages.lookup p = some f := h.fits _ hp
    exact ⟨hlookup, (h.sound.shows hlookup).data⟩
  · exact ((h.sound p).stored_of_written hp).1
  · obtain ⟨f, hf⟩ := (h.sound p).exists_shows hp
    exact ⟨f, hf.lookup, hf.data⟩

/-- Call `n` loads a page, with room in the pool. -/
def loading (n : ℕ) : List (Label β) :=
  [.advance n, .advance n, .advance n, .read n true, .advance n, .advance n, .advance n]

/-- Page 0 is loaded, modified, and then written to make room for page 1. -/
def evicting : List (Label ℕ) :=
  .get 0 :: loading 0 ++
    [.modify 0 7, .drop 0, .get 1, .advance 1, .advance 1, .advance 1, .advance 1, .advance 1]

/-- Page 0 is modified while it is written, so there is no room for page 1. Then it is flushed, and
removed. -/
def modifiedMeanwhile : List (Label ℕ) :=
  evicting ++
    [.get 0, .modify 2 9, .drop 2, .evicted 1 none, .advance 1, .flushPages [0], .visit 0,
      .wrote 0 none, .visit 0,
      .get 1, .advance 3, .advance 3, .advance 3, .advance 3, .advance 3, .advance 3, .read 3 true,
      .advance 3, .advance 3, .advance 3]

theorem pool_keeps_modifications_meanwhile :
    ∃ s, run step (init 1 fun _ => 0) modifiedMeanwhile = some s ∧ .holds 1 1 ∈ s.calls ∧
      (s.mem.frames 1).data = s.mem.last 1 ∧ s.mem.pages.lookup 0 = none ∧ s.mem.mods 0 = 2 ∧
      s.mem.last 0 = 9 ∧ s.mem.storage 0 = s.mem.last 0 := by
  obtain ⟨s, hs, hholds, hlookup, hmods, hlast, hwritten⟩ :
      ∃ s, runChecked Ok step (init 1 fun _ => 0) modifiedMeanwhile = some s ∧ .holds 1 1 ∈ s.calls ∧
        s.mem.pages.lookup 0 = none ∧ s.mem.mods 0 = 2 ∧ s.mem.last 0 = 9 ∧
        s.mem.written 0 = s.mem.mods 0 := by
    decide +kernel
  obtain ⟨hok, hs⟩ := of_runChecked hs
  obtain ⟨hguard, hstored, -⟩ := pool_keeps_modifications 1 (fun _ => 0) modifiedMeanwhile s hok hs
  exact ⟨s, hs, hholds, (hguard 1 1 hholds).2, hlookup, hmods, hlast, hstored 0 hwritten⟩

/-- Somebody takes a guard of page 0 while it is written, and modifies the page when it was
removed. -/
def referencedMeanwhile : List (Label ℕ) :=
  evicting ++ [.get 0, .evicted 1 none, .advance 1, .modify 2 9, .get 0] ++ loading 3

/-- **A modification is lost**: the page is read again, as it was stored. -/
theorem pool_loses_modification :
    ∃ s, run step (init 1 fun _ => 0) referencedMeanwhile = some s ∧ s.calls[3]? = some (.holds 0 1) ∧
      (s.mem.frames 1).data = 7 ∧ s.mem.last 0 = 9 := by
  decide +kernel

end RTsql.Storage.BufferPool
