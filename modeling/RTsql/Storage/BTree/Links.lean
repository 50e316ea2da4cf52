import RTsql.Library.Threaded
import RTsql.Storage.BTree.Shape

/-!
# How leaves are linked

Every leaf has the page of the next, and the last has 0. Through a tree runs a thread: `Links P h
pid f e` says that it enters the tree of height `h` on page `pid` at the leaf on page `f`, runs
through its leaves from left to right, and leaves the last of them for page `e`.

An operation on a subtree changes neither end of its thread (`Threads`): a leaf that is divided
leaves its link to the new page, and a leaf that takes over the entries of its neighbour takes over
the link as well. -/

namespace RTsql.Storage.BTree

open RTsql.Library

variable {κ v : Type}

/-- A page that is not 0, and so is a link to a leaf. -/
abbrev Linked (pid : ℕ) : Prop := pid ≠ 0

/-- The thread through the leaves of a tree. -/
def Links (P : Pages κ v) : ℕ → ℕ → ℕ → ℕ → Prop
  | 0 => fun pid f e => f = pid ∧ ∃ l, P.get pid = some (.leaf l) ∧ l.next = e
  | h + 1 => fun pid f e => ∃ n, P.get pid = some (.internal n) ∧ Threaded (Links P h) Linked n.leftmost n.seps f e

/-- A thread that ran through the tree on page `pid` runs through that tree and those behind
`seg`. -/
def Threads (P P' : Pages κ v) (h pid : ℕ) (seg : List (κ × ℕ)) : Prop :=
  ∀ f e, Links P h pid f e → Threaded (Links P' h) Linked pid seg f e

/-- The allocator does not give page 0 to a tree that has pages. -/
def Allocator.SkipsZero (alloc : Allocator κ v) : Prop := ∀ P : Pages κ v, P.log ≠ [] → alloc.pick P ≠ 0

theorem Allocator.SkipsZero.pick {alloc : Allocator κ v} (hz : alloc.SkipsZero) {P : Pages κ v}
    {pid : ℕ} {page : Page κ v} (hget : P.get pid = some page) : Linked (alloc.pick P) := by
  refine hz P fun hnil => ?_
  obtain ⟨log⟩ := P
  obtain rfl : log = [] := hnil
  cases hget

section Pages

variable {P P' : Pages κ v} {pid q : ℕ} {l l' r m : LeafNode κ v} {s : κ}

theorem links_leaf {f e : ℕ} (hget : P.get pid = some (.leaf l)) : Links P 0 pid f e ↔ f = pid ∧
    l.next = e := by
  constructor
  · rintro ⟨rfl, l', hget', he⟩
    rw [hget, Option.some.injEq, Page.leaf.injEq] at hget'
    exact ⟨rfl, hget' ▸ he⟩
  · rintro ⟨rfl, he⟩
    exact ⟨rfl, l, hget, he⟩

theorem links_internal {n : InternalNode κ} {h f e : ℕ} (hget : P.get pid = some (.internal n)) :
    Links P (h + 1) pid f e ↔ Threaded (Links P h) Linked n.leftmost n.seps f e := by
  constructor
  · rintro ⟨n', hget', ht⟩
    rw [hget, Option.some.injEq, Page.internal.injEq] at hget'
    rwa [hget']
  · exact fun ht => ⟨n, hget, ht⟩

variable (hget : P.get pid = some (.leaf l)) (hget' : P'.get pid = some (.leaf m))

include hget hget'

/-- A leaf that keeps its link. -/
theorem threads_leaf (hnext : m.next = l.next) : Threads P P' 0 pid [] := by
  intro f e hl
  obtain ⟨rfl, rfl⟩ := (links_leaf hget).mp hl
  exact (links_leaf hget').mpr ⟨rfl, hnext⟩

/-- A leaf that leaves its link to a new page. -/
theorem threads_divided (hq : P'.get q = some (.leaf r)) (hlink : Linked q) (hnext : m.next = q)
    (hnext' : r.next = l.next) : Threads P P' 0 pid [(s, q)] := by
  intro f e hl
  obtain ⟨rfl, rfl⟩ := (links_leaf hget).mp hl
  exact ⟨q, hlink, (links_leaf hget').mpr ⟨rfl, hnext⟩, (links_leaf hq).mpr ⟨rfl, hnext'⟩⟩

omit hget hget'

/-- Two pages side by side above a row of pieces. -/
theorem threaded_pair {h f e : ℕ} {l r : InternalNode κ} {s' : κ} (hl : P.get pid = some (.internal l))
    (hr : P.get q = some (.internal r))
    (ht : Threaded (Links P h) Linked l.leftmost (l.seps ++ (s, r.leftmost) :: r.seps) f e) :
    Threaded (Links P (h + 1)) Linked pid [(s', q)] f e := by
  obtain ⟨mid, hin, h₁, h₂⟩ := Threaded.append_iff.mp ht
  exact ⟨mid, hin, (links_internal hl).mpr h₁, (links_internal hr).mpr h₂⟩

end Pages

variable [LinearOrder κ] {strict : Bool} {P P' : Pages κ v} {h pid f e c : ℕ} {lo key : κ}
  {hi : WithTop κ} {m m₁ m₂ : Multiset (κ × v)} {o o₁ o₂ o' : Finset ℕ}

/-- A thread is determined by the pages of its tree. -/
theorem Links.congr (hl : Links P h pid f e) (t : Subtree strict P h pid lo hi m o)
    (hsame : ∀ p ∈ o, P'.get p = P.get p) : Links P' h pid f e := by
  induction h generalizing pid f e lo hi m o with
  | zero =>
    obtain ⟨rfl, l, hget, he⟩ := hl
    exact ⟨rfl, l, by rw [hsame f t.mem, hget], he⟩
  | succ h ih =>
    obtain ⟨n, -, o', hget, hf, -, rfl⟩ := t
    have ht := (links_internal hget).mp hl
    refine (links_internal (by rw [hsame pid (Finset.mem_insert_self pid o'), hget])).mpr
      (ht.mono fun x hx f e hx' => ?_)
    obtain ⟨lo, hi, m, o'', ho'', t⟩ := hf.exists_piece x hx
    exact ih hx' t fun p hp => hsame p (Finset.mem_insert_of_mem (ho'' hp))

theorem threaded_congr {seps : List (κ × ℕ)} (ht : Threaded (Links P h) Linked c seps f e)
    (hf : Fenced (Subtree strict P h) c seps lo hi m o) (hsame : ∀ p ∈ o, P'.get p = P.get p) :
    Threaded (Links P' h) Linked c seps f e := by
  refine ht.mono fun x hx f e hl => ?_
  obtain ⟨lo, hi, m, o', ho', t⟩ := hf.exists_piece x hx
  exact hl.congr t fun p hp => hsame p (ho' hp)

section Focus

variable {n : InternalNode κ} {pre post seg : List (κ × ℕ)}

/-- **A change to the child.** If the thread runs through the child as before, it runs through the
node as before. -/
theorem Focus.threaded (hfocus : Focus strict P h n lo hi key pre post m₁ m₂ o₁ o₂)
    (hrw : Rewrites P P' o₁ o') (hchild : Threads P P' h (lastKid n.leftmost pre) seg)
    (ht : Threaded (Links P h) Linked n.leftmost n.seps f e) :
    Threaded (Links P' h) Linked n.leftmost (pre ++ seg ++ post) f e := by
  have hnd := hfocus.nodup
  rw [hfocus.seps, ← List.append_nil pre] at ht hnd
  obtain ⟨f', e', hold, hrep⟩ := ht.replace hnd
  refine hrep _ (fun x hx hne f e hl => ?_) seg (hchild f' e' hold)
  obtain ⟨lo, hi, m, o, ho, t⟩ := Fenced.exists_piece_of_replace hfocus.replace hx hne
  exact hl.congr t fun p hp => hrw.same hfocus.disjoint hfocus.inUse p (ho hp)

end Focus

end RTsql.Storage.BTree
