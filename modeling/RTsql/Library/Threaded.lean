import RTsql.Library.Fenced

/-!
# Pieces on a thread

The children of a node may be linked with each other: from the first element of a piece a thread
runs through the piece and leaves it for the first element of the next. `Threaded T inner c seps f
e` says that it runs through the children `c` and those of `seps`, from `f` to `e`; `T` says how it
runs through a piece, and where it goes from one piece to the next, the element there satisfies
`inner`.

* `Threaded.append_iff` — it may be cut between two children.
* `Threaded.replace` — a segment of the pieces may be replaced by others through which the thread
runs between the same ends. -/

namespace RTsql.Library

open List

universe u v w

variable {ι : Type u} {κ : Type v} {α : Type w}

/-- A thread runs through the children `c` and those of `seps`, from `f` to `e`. -/
def Threaded (T : ι → α → α → Prop) (inner : α → Prop) : ι → List (κ × ι) → α → α → Prop
  | c, [], f, e => T c f e
  | c, (_, c') :: rest, f, e => ∃ mid, inner mid ∧ T c f mid ∧ Threaded T inner c' rest mid e

variable {T T' : ι → α → α → Prop} {inner : α → Prop} {c c' : ι} {seps pre seg post : List (κ × ι)}
  {f e : α}

namespace Threaded

theorem mono (h : Threaded T inner c seps f e)
    (hT : ∀ x ∈ c :: seps.map Prod.snd, ∀ f e, T x f e → T' x f e) : Threaded T' inner c seps f e := by
  induction seps generalizing c f with
  | nil => exact hT c mem_cons_self f e h
  | cons s rest ih =>
    obtain ⟨mid, hin, hc, hrest⟩ := h
    exact ⟨mid, hin, hT c mem_cons_self f mid hc, ih hrest fun x hx => hT x (mem_cons_of_mem _ hx)⟩

/-- **Cutting the thread.** -/
theorem append_iff {s : κ} : Threaded T inner c (pre ++ (s, c') :: post) f e ↔
    ∃ mid, inner mid ∧ Threaded T inner c pre f mid ∧ Threaded T inner c' post mid e := by
  induction pre generalizing c f with
  | nil => rfl
  | cons p pre ih =>
    constructor
    · rintro ⟨mid, hin, hc, hrest⟩
      obtain ⟨mid', hin', hpre, hpost⟩ := ih.mp hrest
      exact ⟨mid', hin', ⟨mid, hin, hc, hpre⟩, hpost⟩
    · rintro ⟨mid', hin', ⟨mid, hin, hc, hpre⟩, hpost⟩
      exact ⟨mid, hin, hc, ih.mpr ⟨mid', hin', hpre, hpost⟩⟩

/-- **Replacing a segment.** The children outside the segment may be pieces in another sense. -/
theorem replace (h : Threaded T inner c (pre ++ seg ++ post) f e)
    (hnd : (c :: (pre ++ seg ++ post).map Prod.snd).Nodup) :
    ∃ f' e', Threaded T inner (lastKid c pre) seg f' e' ∧ ∀ T' : ι → α → α → Prop,
      (∀ x ∈ c :: (pre ++ post).map Prod.snd, x ≠ lastKid c pre → ∀ f e, T x f e → T' x f e) →
      ∀ seg', Threaded T' inner (lastKid c pre) seg' f' e' →
      Threaded T' inner c (pre ++ seg' ++ post) f e := by
  induction pre generalizing c f with
  | nil =>
    cases post with
    | nil =>
      rw [append_nil] at h
      refine ⟨f, e, h, fun T' _ seg' h' => ?_⟩
      rwa [append_nil]
    | cons p post =>
      obtain ⟨mid, hin, hseg, hpost⟩ := append_iff.mp h
      refine ⟨f, mid, hseg, fun T' hT seg' h' =>
        append_iff.mpr ⟨mid, hin, h', hpost.mono fun x hx => ?_⟩⟩
      refine hT x (mem_cons_of_mem _ hx) ?_
      rintro rfl
      rw [map_append] at hnd
      exact (nodup_cons.mp hnd).1 (mem_append_right _ hx)
  | cons p pre ih =>
    obtain ⟨mid, hin, hc, hrest⟩ := h
    obtain ⟨hnew, hnd'⟩ := nodup_cons.mp hnd
    obtain ⟨f', e', hseg, hrep⟩ := ih hrest hnd'
    refine ⟨f', e', hseg, fun T' hT seg' h' => ⟨mid, hin, hT c mem_cons_self ?_ f mid hc, ?_⟩⟩
    · intro heq
      have hmem : lastKid p.2 pre ∈ p.2 :: pre.map Prod.snd := lastKid_mem
      refine hnew ?_
      rw [heq]
      rw [append_assoc, cons_append, map_cons, map_append]
      exact mem_append_left _ hmem
    · exact hrep T' (fun x hx hne => hT x (mem_cons_of_mem _ hx) hne) seg' h'

end Threaded

end RTsql.Library
