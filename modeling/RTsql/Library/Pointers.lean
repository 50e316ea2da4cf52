import Mathlib.Data.List.Nodup

/-!
# Lists by pointers

Nodes that name the node after them, `next : ι → ι`. Following the pointers from a node passes a
list of nodes and arrives somewhere; a list that arrives at a node it does not pass, such as the one
that stands for the end, is determined by where it starts, and passes no node twice.

* `Path next p l e` — from `p` on, the nodes of `l`, and then `e`.
* `path_append`, `Path.congr` — paths in parts, and paths of other pointers that agree.
* `Path.unique`, `Path.nodup` — one path to the end, without repetition.
-/

namespace RTsql.Library

open List

universe u

variable {ι : Type u} {next next' : ι → ι} {p q e : ι} {l m : List ι}

/-- Following `next` from `p` passes the nodes of the list and arrives at `e`. -/
def Path (next : ι → ι) : ι → List ι → ι → Prop
  | p, [], e => p = e
  | p, q :: l, e => p = q ∧ Path next (next q) l e

theorem path_append : Path next p (l ++ m) e ↔ ∃ q, Path next p l q ∧ Path next q m e := by
  induction l generalizing p with
  | nil => simp [Path]
  | cons a l ih => simp only [cons_append, Path, ih, and_assoc, exists_and_left]

/-- A path that ends with a given node. -/
theorem path_concat : Path next p (l ++ [q]) e ↔ Path next p l q ∧ next q = e := by
  rw [path_append]
  constructor
  · rintro ⟨_, hl, rfl, he⟩
    exact ⟨hl, he⟩
  · rintro ⟨hl, he⟩
    exact ⟨q, hl, rfl, he⟩

theorem Path.congr (h : Path next p l e) (hnext : ∀ q ∈ l, next' q = next q) : Path next' p l e := by
  induction l generalizing p with
  | nil => exact h
  | cons a l ih =>
    refine ⟨h.1, ?_⟩
    rw [hnext a mem_cons_self]
    exact ih h.2 fun q hq => hnext q (mem_cons_of_mem _ hq)

/-- Only one list leads to a node that it does not pass. -/
theorem Path.unique (h : Path next p l e) (h' : Path next p m e) (hl : e ∉ l) (hm : e ∉ m) : l = m := by
  induction l generalizing p m with
  | nil =>
    cases m with
    | nil => rfl
    | cons b m => exact absurd (h.symm.trans h'.1) (ne_of_not_mem_cons hm)
  | cons a l ih =>
    cases m with
    | nil => exact absurd (h'.symm.trans h.1) (ne_of_not_mem_cons hl)
    | cons b m =>
      obtain rfl : a = b := h.1.symm.trans h'.1
      rw [ih h.2 h'.2 (not_mem_of_not_mem_cons hl) (not_mem_of_not_mem_cons hm)]

/-- It passes no node twice: from the second time on it would have to take the way it took the first
time. -/
theorem Path.nodup (h : Path next p l e) (hl : e ∉ l) : l.Nodup := by
  induction l generalizing p with
  | nil => exact nodup_nil
  | cons a l ih =>
    refine nodup_cons.mpr ⟨fun ha => ?_, ih h.2 (not_mem_of_not_mem_cons hl)⟩
    obtain ⟨m, k, rfl⟩ := append_of_mem ha
    obtain ⟨q, -, hq⟩ := path_append.mp h.2
    obtain rfl : q = a := hq.1
    have hfirst : Path next q (q :: (m ++ q :: k)) e := ⟨rfl, h.2⟩
    have hlen := congrArg List.length (hfirst.unique hq hl fun hk => hl (by simp_all))
    simp only [length_cons, length_append] at hlen
    omega

end RTsql.Library
