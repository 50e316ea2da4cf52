import Mathlib.Data.List.Infix
import Mathlib.Data.Nat.Notation

/-!
# LIKE

`like_match` of `predicate.rs` goes through the value and the pattern together. Where they differ it
goes back to the last `%` it has met and lets it take one more character. It looks for an equal
character before it looks for a `%`, so a `%` of the pattern that meets a `%` of the value is taken
for itself and is no place to go back to. What it finds are the splittings of the value in which
such a `%` takes that character and no more. -/

namespace RTsql.Executor

open List

/-- What a pattern stands for: `%` for any run of characters, `_` for any character, another
character for itself. -/
inductive Matches : List Char → List Char → Prop
  | nil : Matches [] []
  | run {p v w : List Char} : w <:+ v → Matches p w → Matches ('%' :: p) v
  | one {p v : List Char} (c : Char) : Matches p v → Matches ('_' :: p) (c :: v)
  | char {p v : List Char} {c : Char} : c ≠ '%' → c ≠ '_' → Matches p v → Matches (c :: p) (c :: v)

/-- The splittings that `like_match` looks for: a `%` that meets a `%` takes that one character. -/
inductive Splits : List Char → List Char → Prop
  | nil : Splits [] []
  | run {p v w : List Char} : v.head? ≠ some '%' → w <:+ v → Splits p w → Splits ('%' :: p) v
  | one {p v : List Char} (c : Char) : Splits p v → Splits ('_' :: p) (c :: v)
  | char {p v : List Char} {c : Char} : c ≠ '_' → Splits p v → Splits (c :: p) (c :: v)

/-- The loop of `like_match`, on what is left of the value and of the pattern. `star` is what was
left of the value, and is behind the `%` in the pattern, when the last `%` was met. Without fuel
there is no answer. -/
def likeLoop : ℕ → Option (List Char × List Char) → List Char → List Char → Option Bool
  | _, _, [], p => some (p.dropWhile (· = '%')).isEmpty
  | 0, _, _ :: _, _ => none
  | fuel + 1, star, c :: v, p =>
    -- the last `%` takes one more character
    let back := star.elim (some false) fun s => likeLoop fuel (some (s.1.tail, s.2)) s.1.tail s.2
    match p with
    | d :: p =>
      if d = '_' ∨ d = c then likeLoop fuel star v p
      else if d = '%' then likeLoop fuel (some (c :: v, p)) (c :: v) p
      else back
    | [] => back

/-- `like_match`. -/
def likeMatch (value pattern : String) : Option Bool :=
  let v := value.toList
  let p := pattern.toList
  likeLoop (v.length * (p.length + 1) + p.length + 1) none v p

section

variable {p v value pattern : List Char} {c d : Char} {star : Option (List Char × List Char)}

theorem Splits.matches (h : Splits p v) : Matches p v := by
  induction h with
  | nil => exact .nil
  | run _ hw _ ih => exact .run hw ih
  | one c _ ih => exact .one c ih
  | @char p v c hc _ ih =>
    by_cases hrun : c = '%'
    · exact hrun ▸ .run (suffix_cons _ v) ih
    · exact .char hrun hc ih

theorem suffix_iff_tail (u : List Char) : u <:+ v ↔ u = v ∨ u <:+ v.tail := by
  cases v with
  | nil => simp
  | cons c v => exact suffix_cons_iff

/-- Whatever a `%` takes, the rest of the pattern is left with a suffix. -/
theorem Splits.exists_suffix (h : Splits ('%' :: p) v) : ∃ w, w <:+ v ∧ Splits p w := by
  cases h with
  | run _ hw h => exact ⟨_, hw, h⟩
  | char _ h => exact ⟨_, suffix_cons _ _, h⟩

theorem splits_run_iff (hv : v.head? ≠ some '%') : Splits ('%' :: p) v ↔ ∃ w, w <:+ v ∧ Splits p w :=
  ⟨Splits.exists_suffix, fun ⟨_, hw, h⟩ => .run hv hw h⟩

theorem splits_cons (hd : d = '%' → c = '%') : Splits (d :: p) (c :: v) ↔ (d = '_' ∨ d = c) ∧
    Splits p v := by
  constructor
  · intro h
    cases h with
    | run hc => exact absurd (congrArg some (hd rfl)) hc
    | one _ h => exact ⟨.inl rfl, h⟩
    | char _ h => exact ⟨.inr rfl, h⟩
  · rintro ⟨hdc, h⟩
    by_cases hone : d = '_'
    · exact hone ▸ .one c h
    · exact hdc.resolve_left hone ▸ .char hone h

theorem splits_nil_right : Splits p [] ↔ p.dropWhile (· = '%') = [] := by
  induction p with
  | nil => simp [Splits.nil]
  | cons d p ih =>
    by_cases hd : d = '%'
    · rw [hd, splits_run_iff (by simp)]
      simp [ih]
    · simp only [dropWhile_cons, hd, decide_false, Bool.false_eq_true, if_false, reduceCtorEq, iff_false]
      intro h
      cases h
      exact hd rfl

/-- What holds at each turn of the loop. What the pattern can match from the last `%` on, the rest
of it can match here: no other `%` has to be gone back to. -/
structure LikeInv (value pattern : List Char) (star : Option (List Char × List Char))
    (v p : List Char) : Prop where
  here : v <:+ value ∧ p <:+ pattern
  back : ∀ s ∈ star, v <:+ s.1 ∧ s.1 <:+ value ∧ s.2 <:+ pattern
  last : ∀ s ∈ star, ∀ u, u <:+ s.1.tail → Splits s.2 u → ∃ w, w <:+ v ∧ Splits p w

/-- At the last `%`. -/
theorem LikeInv.atStar (hv : v <:+ value) (hp : p <:+ pattern) :
    LikeInv value pattern (some (v, p)) v p := by
  refine ⟨⟨hv, hp⟩, fun s hs => ?_, fun s hs u hu h => ?_⟩ <;> cases hs
  · exact ⟨suffix_rfl, hv, hp⟩
  · exact ⟨u, hu.trans (tail_suffix v), h⟩

/-- The value and the pattern go on by a character. -/
theorem LikeInv.step (hi : LikeInv value pattern star (c :: v) (d :: p)) (hd : d = '%' → c = '%') :
    LikeInv value pattern star v p := by
  refine ⟨⟨(suffix_cons c v).trans hi.here.1, (suffix_cons d p).trans hi.here.2⟩,
    fun s hs => ⟨(suffix_cons c v).trans (hi.back s hs).1, (hi.back s hs).2⟩, fun s hs u hu h => ?_⟩
  obtain ⟨w, hw, h⟩ := hi.last s hs u hu h
  obtain rfl | hw := suffix_cons_iff.mp hw
  · exact ⟨v, suffix_rfl, ((splits_cons hd).mp h).2⟩
  cases h with
  | run _ hx h => exact ⟨_, hx.trans hw, h⟩
  | one e h => exact ⟨_, (suffix_cons e _).trans hw, h⟩
  | char _ h => exact ⟨_, (suffix_cons _ _).trans hw, h⟩

/-- The answer to be found: the rest can be split, or the last `%` takes more. -/
def Answer (star : Option (List Char × List Char)) (v p : List Char) : Prop :=
  Splits p v ∨ ∃ s ∈ star, ∃ u, u <:+ s.1.tail ∧ Splits s.2 u

theorem answer_atStar : Answer (some (v, p)) v p ↔ ∃ u, u <:+ v ∧ Splits p u := by
  simp only [@suffix_iff_tail v, or_and_right, exists_or, exists_eq_left, Answer, Option.mem_some_iff,
    exists_eq_left']

theorem likeLoop_spec {fuel : ℕ} (hi : LikeInv value pattern star v p)
    (hfuel : (star.elim value Prod.fst).length * (pattern.length + 1) + p.length < fuel) :
    ∃ b, likeLoop fuel star v p = some b ∧ (b = true ↔ Answer star v p) := by
  induction fuel generalizing star v p with
  | zero => omega
  | succ fuel ih =>
    cases v with
    | nil =>
      refine ⟨_, by rw [likeLoop], ?_⟩
      rw [List.isEmpty_iff, ← splits_nil_right]
      refine ⟨.inl, fun h => h.elim id fun ⟨s, hs, u, hu, h⟩ => ?_⟩
      obtain ⟨w, hw, h⟩ := hi.last s hs u hu h
      exact suffix_nil.mp hw ▸ h
    | cons c v =>
      -- the value and the pattern differ
      have back (hno : ¬ Splits p (c :: v)) :
          ∃ b, (star.elim (some false) fun s => likeLoop fuel (some (s.1.tail, s.2)) s.1.tail s.2) =
            some b ∧
            (b = true ↔ Answer star (c :: v) p) := by
        cases star with
        | none => exact ⟨false, rfl, by simp [Answer, hno]⟩
        | some s =>
          obtain ⟨hv, hs, hq⟩ := hi.back s rfl
          have hlen : s.1.tail.length + 1 = s.1.length := by
            have := hv.length_le
            simp only [length_cons, length_tail] at *
            omega
          have hq' := hq.length_le
          simp only [Option.elim_some, ← hlen, Nat.add_mul] at hfuel
          obtain ⟨b, hb, hiff⟩ := ih (.atStar ((tail_suffix _).trans hs) hq)
            (by simp only [Option.elim_some]; omega)
          exact ⟨b, hb, hiff.trans (answer_atStar.trans (by simp [Answer, hno]))⟩
      cases p with
      | nil => exact back fun h => by cases h
      | cons d p =>
        simp only [length_cons] at hfuel
        rw [likeLoop]
        split
        case isTrue hdc =>
          -- here a `%` that meets a `%` takes it
          have hd : d = '%' → c = '%' := by
            rintro rfl
            exact (hdc.resolve_left (by decide)).symm
          obtain ⟨b, hb, hiff⟩ := ih (hi.step hd) (by omega)
          refine ⟨b, hb, hiff.trans ?_⟩
          rw [Answer, Answer, splits_cons hd, and_iff_right hdc]
        case isFalse hdc =>
          split
          case isFalse hd => exact back fun h => hdc ((splits_cons fun heq => absurd heq hd).mp h).1
          case isTrue hd =>
            subst hd
            have hc : (c :: v).head? ≠ some '%' := fun heq => hdc (.inr (Option.some.inj heq).symm)
            have hlen : (c :: v).length ≤ (star.elim value Prod.fst).length := by
              cases star with
              | none => exact hi.here.1.length_le
              | some s => exact (hi.back s rfl).1.length_le
            have hmul := Nat.mul_le_mul_right (pattern.length + 1) hlen
            obtain ⟨b, hb, hiff⟩ := ih (.atStar hi.here.1 ((suffix_cons _ p).trans hi.here.2))
              (by simp only [Option.elim_some]; omega)
            refine ⟨b, hb, hiff.trans (answer_atStar.trans ?_)⟩
            rw [← splits_run_iff hc]
            refine ⟨.inl, fun h => h.elim id fun ⟨s, hs, u, hu, h⟩ => ?_⟩
            -- a `%` before this one takes nothing that this one cannot
            obtain ⟨w, hw, h⟩ := hi.last s hs u hu h
            obtain ⟨x, hx, h⟩ := h.exists_suffix
            exact .run hc (hx.trans hw) h

end

/-- `like_match` returns, and says whether the value is in the language of the pattern, exactly if a
value of the language has a splitting in which each `%` that meets a `%` of the value takes that
character and no more. -/
theorem likeMatch_iff (value pattern : String) :
    (∃ b, likeMatch value pattern = some b ∧ (b = true ↔ Matches pattern.toList value.toList)) ↔
      (Matches pattern.toList value.toList → Splits pattern.toList value.toList) := by
  have hi : LikeInv value.toList pattern.toList none value.toList pattern.toList :=
    ⟨⟨suffix_rfl, suffix_rfl⟩, by simp, by simp⟩
  obtain ⟨b, hb, hiff⟩ := likeLoop_spec hi (Nat.lt_succ_self _)
  replace hiff : b = true ↔ Splits pattern.toList value.toList := hiff.trans (by simp [Answer])
  constructor
  · rintro ⟨b', hb', hmatch⟩ h
    cases hb.symm.trans hb'
    exact hiff.mp (hmatch.mpr h)
  · exact fun h => ⟨b, hb, hiff.trans ⟨Splits.matches, h⟩⟩

/-- The pattern `%` stands for every value, but it is not found to match `%a`. -/
theorem likeMatch_misses : likeMatch "%a" "%" = some false ∧ Matches "%".toList "%a".toList :=
  ⟨by decide +kernel, .run nil_suffix .nil⟩

end RTsql.Executor
