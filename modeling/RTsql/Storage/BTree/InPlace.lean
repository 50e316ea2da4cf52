import RTsql.Storage.BTree.Operations

/-!
# Operations in place

Most operations write one page, the leaf of their key: an insertion if the leaf has room, a
deletion if the leaf is the root or has more than `MIN_KEYS` entries, an update always. Others
divide pages, take entries from a sibling or merge pages, and write several pages one
after the other.

`Write.inPlace` looks at the leaf, and `Write.perform_inPlace` says that the operation then writes
no other page. -/

namespace RTsql.Storage.BTree

open RTsql.Library Proc

variable {κ v : Type} {l : LeafNode κ v}

/-! ### Page writes -/

namespace Pages

/-- Several steps, the first one first. -/
def pushAll (P : Pages κ v) (ws : List (PageWrite κ v)) : Pages κ v := ws.foldl push P

/-- The steps from `P` to `P'`. -/
def newWrites (P P' : Pages κ v) : List (PageWrite κ v) :=
    (P'.log.take (P'.log.length - P.log.length)).reverse

variable {P P' : Pages κ v}

@[simp] theorem pushAll_nil : P.pushAll [] = P := rfl

@[simp] theorem pushAll_cons (w : PageWrite κ v) (ws : List (PageWrite κ v)) :
    P.pushAll (w :: ws) = (P.push w).pushAll ws := rfl

theorem log_pushAll (ws : List (PageWrite κ v)) : (P.pushAll ws).log = ws.reverse ++ P.log := by
  induction ws generalizing P with
  | nil => rfl
  | cons w ws ih => simp [ih, push]

@[simp] theorem newWrites_pushAll (ws : List (PageWrite κ v)) : P.newWrites (P.pushAll ws) = ws := by
  simp [newWrites, log_pushAll]

theorem pushAll_newWrites (h : P.log <:+ P'.log) : P.pushAll (P.newWrites P') = P' := by
  obtain ⟨log⟩ := P
  obtain ⟨log'⟩ := P'
  obtain ⟨ws, rfl⟩ := h
  have : pushAll ⟨log⟩ (newWrites ⟨log⟩ ⟨ws ++ log⟩) =
    ⟨(newWrites ⟨log⟩ ⟨ws ++ log⟩ : List (PageWrite κ v)).reverse ++ log⟩ :=
    congrArg Pages.mk (log_pushAll _)
  rw [this]
  simp [newWrites]

end Pages

/-- At most one page is written, a leaf, which stays one. -/
def Touches (P : Pages κ v) (ws : List (PageWrite κ v)) : Prop :=
  ws = [] ∨ ∃ q l l', ws = [.write q (.leaf l')] ∧ P.get q = some (.leaf l)

/-- What is written in place is no internal node. -/
theorem Touches.internal {P : Pages κ v} {ws : List (PageWrite κ v)} (h : Touches P ws) {p : ℕ}
    {n : InternalNode κ}
    (hget : P.get p = some (.internal n)) : (P.pushAll ws).get p = some (.internal n) := by
  obtain rfl | ⟨q, l, l', rfl, hleaf⟩ := h
  · exact hget
  · have hne : p ≠ q := by
      rintro rfl
      cases hget.symm.trans hleaf
    simp [hne, hget]

/-! ### Leaves -/

namespace LeafNode

variable [LinearOrder κ] {l' : LeafNode κ v}

/-- An entry goes into a leaf that has room. -/
theorem insert_of_room (key : κ) (value : v) (hroom : l.HasRoom) : ∃ l',
    l.insert key value = .ok l' := by
  obtain ⟨p, hp, -⟩ := insertSimple_of_le (p := l.page) (key, value) hroom
  rw [insert, hp]
  split
  · exact ⟨_, rfl⟩
  · obtain ⟨p', hp', -⟩ := rebuild_entries (sortEntries p.slots) (by
      rw [sortEntries, List.length_insertionSort]
      exact length_entries_le { l with page := p })
    show ∃ l', (rebuild (sortEntries p.slots)).map _ = _
    rw [hp']
    exact ⟨_, rfl⟩

theorem length_of_delete {key : κ} (h : l.delete key = .ok l') :
    l'.entries.length + 1 = l.entries.length := by
  rw [delete] at h
  cases hloc : l.locate key with
  | error e =>
    rw [hloc] at h
    cases h
  | ok i =>
    rw [hloc] at h
    by_cases hi : i < l.page.slots.length
    · obtain ⟨p, hp, hslots, -⟩ := SlottedPage.deleteSlot_of_lt hi
      have hl' : l' = { l with page := p } := by
        have : (removeSlot l.page i).map (fun page => { l with page }) = .ok l' := h
        rw [removeSlot, hp] at this
        exact (Except.ok.inj this).symm
      subst hl'
      show p.slots.length + 1 = l.page.slots.length
      rw [hslots, List.length_eraseIdx_of_lt hi]
      omega
    · have : (removeSlot l.page i).map (fun page => { l with page }) = .ok l' := h
      rw [removeSlot, SlottedPage.deleteSlot, if_neg hi] at this
      cases this

end LeafNode

/-! ### Descents -/

/-- The leaf below a node is the leaf below its child. -/
theorem getLast?_searchPath_cons {page : Page κ v} {path : List (Page κ v)}
    (h : path.getLast? = some (.leaf l)) : (page :: path).getLast? = some (.leaf l) := by
  rw [List.getLast?_cons, h]
  rfl

section Descent

variable {P : Pages κ v} {fuel pid : ℕ} {α β : Type} {m : TreeAction κ v α} {x : α}
  {f : α → TreeAction κ v β} {y : β}

/-- The action fails or returns `x`, and writes one leaf at most. -/
def InPlace (m : TreeAction κ v α) (x : α) (P : Pages κ v) : Prop :=
  ∃ r ws, m P = (r, P.pushAll ws) ∧ Touches P ws ∧ ∀ y, r = .ok y → y = x

theorem InPlace.fail {e : TreeError} (h : m P = (.error e, P)) : InPlace m x P :=
    ⟨_, [], h, .inl rfl, nofun⟩

theorem InPlace.write (hget : P.get pid = some (.leaf l)) (l' : LeafNode κ v)
    (h : m P = (.ok x, P.push (.write pid (.leaf l')))) : InPlace m x P :=
  ⟨_, [_], h, .inr ⟨pid, l, l', rfl, hget⟩, fun _ hy => (Except.ok.inj hy).symm⟩

theorem InPlace.bind (h : InPlace m x P) (hf : ∀ P', f x P' = (.ok y, P')) :
    InPlace (m >>= f) y P := by
  obtain ⟨r, ws, hrun, htouch, hr⟩ := h
  cases r with
  | error e => exact ⟨.error e, ws, bind_of_error hrun, htouch, nofun⟩
  | ok z =>
    obtain rfl := hr z rfl
    exact ⟨.ok y, ws, (bind_of_ok hrun).trans (hf _), htouch, fun _ hy => (Except.ok.inj hy).symm⟩

theorem InPlace.of_ok (hm : m P = (.ok x, P)) (h : InPlace (f x) y P) :
    InPlace (m >>= f) y P := by
  rwa [InPlace, bind_of_ok hm]

variable [LinearOrder κ] {key : κ} {value : v}

/-- An insertion that comes to a leaf with room. -/
theorem insertIntoPage_inPlace (alloc : Allocator κ v) (value : v) (descent : List ℕ)
    (hroom : ∀ l, (searchPath P key fuel pid).getLast? = some (.leaf l) → l.HasRoom) :
    InPlace (insertIntoPage alloc key value fuel pid descent) none P := by
  induction fuel generalizing pid descent with
  | zero => exact .fail rfl
  | succ fuel ih =>
    rw [insertIntoPage]
    by_cases hcycle : pid ∈ descent
    · rw [if_pos hcycle]
      exact .fail rfl
    · rw [if_neg hcycle]
      rw [searchPath] at hroom
      cases hget : P.get pid with
      | none => exact .fail (bind_of_error (loadPage_of_none hget))
      | some page =>
        rw [hget] at hroom
        refine .of_ok (loadPage_eq hget) ?_
        cases page with
        | raw => exact .fail rfl
        | leaf l =>
          obtain ⟨l', hl'⟩ := l.insert_of_room key value (hroom l rfl)
          refine InPlace.write (m := insertIntoLeaf alloc pid l key value) hget l' ?_
          rw [insertIntoLeaf, hl']
          rfl
        | internal n => exact (ih (pid :: descent) fun l hl => hroom l (getLast?_searchPath_cons hl)).bind fun _ => rfl

/-- An update writes the leaf. -/
theorem updateInPage_inPlace (P : Pages κ v) (key : κ) (value : v) (fuel pid : ℕ) :
    InPlace (updateInPage key value fuel pid) () P := by
  induction fuel generalizing pid with
  | zero => exact .fail rfl
  | succ fuel ih =>
    rw [updateInPage]
    cases hget : P.get pid with
    | none => exact .fail (bind_of_error (loadPage_of_none hget))
    | some page =>
      refine .of_ok (loadPage_eq hget) ?_
      cases page with
      | raw => exact .fail rfl
      | leaf l =>
        cases hupd : l.update key value with
        | error e => exact .fail (bind_of_error (by rw [hupd]; rfl))
        | ok l' => exact .write hget l' (bind_of_ok (by rw [hupd]; rfl))
      | internal n => exact ih (n.findChildPageIdBinary key)

variable [OrderBot κ]

/-- A deletion from a leaf that is the root, or has entries to spare. -/
theorem deleteFromLeaf_inPlace (parent : Option (ℕ × ℕ)) (hget : P.get pid = some (.leaf l))
    (hspare : parent = none ∨ minKeys < l.entries.length) :
    InPlace (deleteFromLeaf key pid parent) none P := by
  refine .of_ok (loadLeaf_eq hget) ?_
  cases hdel : l.delete key with
  | error e => exact .fail rfl
  | ok l' =>
    refine .write hget l' ?_
    have hlen := LeafNode.length_of_delete hdel
    cases parent with
    | none => rfl
    | some parent =>
      have hkeys : ¬ l'.entries.length < minKeys := by
        have := hspare.resolve_left nofun
        omega
      show (if l'.entries.length < minKeys then _ else pure none : TreeAction κ v (Option (MergeInfo κ)))
        (P.push (.write pid (.leaf l'))) = _
      rw [if_neg hkeys]
      rfl

theorem deleteFromPage_inPlace (parent : Option (ℕ × ℕ))
    (hspare : ∀ l, (searchPath P key fuel pid).getLast? = some (.leaf l) →
      (parent = none ∧ (searchPath P key fuel pid).length = 1) ∨ minKeys < l.entries.length) :
    InPlace (deleteFromPage key fuel pid parent) none P := by
  induction fuel generalizing pid parent with
  | zero => exact .fail rfl
  | succ fuel ih =>
    rw [deleteFromPage]
    rw [searchPath] at hspare
    cases hget : P.get pid with
    | none => exact .fail (bind_of_error (loadPage_of_none hget))
    | some page =>
      rw [hget] at hspare
      refine .of_ok (loadPage_eq hget) ?_
      cases page with
      | raw => exact .fail rfl
      | leaf l => exact deleteFromLeaf_inPlace parent hget ((hspare l rfl).imp_left And.left)
      | internal n =>
        refine (ih (some (pid, (n.findChildPosition key).2)) fun l hl => .inr ?_).bind fun _ => rfl
        refine (hspare l (getLast?_searchPath_cons hl)).resolve_left fun hone => ?_
        -- the path goes on below the node
        have hnil : searchPath P key fuel (n.findChildPosition key).1 = [] :=
          List.length_eq_zero_iff.mp (Nat.succ.inj hone.2)
        simp [hnil] at hl

end Descent

/-! ### Operations -/

/-- What is done with a unique index. -/
inductive Write (κ v : Type) where
  | insert (key : κ) (value : v)
  | delete (key : κ)
  | update (key : κ) (value : v)
  deriving DecidableEq, Repr

namespace Write

/-- The key of the operation. -/
def key : Write κ v → κ
  | insert key _ => key
  | delete key => key
  | update key _ => key

variable [LinearOrder κ] {w : Write κ v}

/-- The operation on a map. -/
def apply (map : κ → Option v) : Write κ v → κ → Option v
  | insert key value => Function.update map key (some value)
  | delete key => Function.update map key none
  | update key value => if (map key).isSome then Function.update map key (some value) else map

theorem apply_of_ne {map : κ → Option v} {k : κ} (hk : k ≠ w.key) : w.apply map k = map k := by
  cases w with
  | insert key value | delete key => exact Function.update_of_ne hk ..
  | update key value =>
    rw [apply]
    split
    · exact Function.update_of_ne hk ..
    · rfl

variable [OrderBot κ]

/-- The operation on a tree. -/
def perform (alloc : Allocator κ v) (t : Tree κ v) : Write κ v → Except TreeError Unit × Tree κ v
  | insert key value => t.insert alloc key value
  | delete key => t.delete key
  | update key value => t.update key value

/-- The leaf of the key is all that has to be written. -/
def inPlace (t : Tree κ v) : Write κ v → Bool
  | insert key _ =>
    match (searchPath t.pages key t.pages.mark t.root).getLast? with
    | some (.leaf l) => decide l.HasRoom
    | _ => true
  | delete key =>
    match (searchPath t.pages key t.pages.mark t.root).getLast? with
    | some (.leaf l) => (searchPath t.pages key t.pages.mark t.root).length = 1 ∨ minKeys < l.entries.length
    | _ => true
  | update _ _ => true

/-- **An operation in place** writes one leaf at most, and keeps the root. -/
theorem perform_inPlace {t : Tree κ v} (alloc : Allocator κ v) (h : w.inPlace t = true) :
    ∃ ws, (w.perform alloc t).2 = ⟨t.pages.pushAll ws, t.root⟩ ∧ Touches t.pages ws := by
  have hperform {m : TreeAction κ v ℕ} (hm : InPlace m t.root t.pages) :
      ∃ ws, (t.perform m).2 = ⟨t.pages.pushAll ws, t.root⟩ ∧ Touches t.pages ws := by
    obtain ⟨r, ws, hrun, htouch, hr⟩ := hm
    refine ⟨ws, ?_, htouch⟩
    rw [Tree.perform, hrun]
    cases r with
    | error e => rfl
    | ok root => rw [hr root rfl]
  cases w with
  | insert key value =>
    refine hperform ((insertIntoPage_inPlace alloc value [] fun l hl => ?_).bind fun _ => rfl)
    simpa [inPlace, hl] using h
  | delete key =>
    refine hperform ((deleteFromPage_inPlace none fun l hl => ?_).bind fun _ => rfl)
    simpa [inPlace, hl] using h
  | update key value => exact hperform ((updateInPage_inPlace t.pages key value t.pages.mark t.root).bind fun _ => rfl)

end Write

end RTsql.Storage.BTree
