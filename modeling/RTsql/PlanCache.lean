import RTsql.Library.Run
import Mathlib.Logic.Function.Basic

/-!
# Plans that are kept

A SELECT statement is looked up in the plan cache. If it is not there, the metadata of its tables
are read, a plan is built, and the plan is put into the cache. A prepared statement keeps a plan of
its own, with the schema version that was read before the metadata; it is used as long as that is
the version. A schema change changes the catalog, clears the cache and advances the version, one
after the other (`bump_schema_version`).

The catalog is the number of its changes, and a plan has the catalog that its metadata were read
from. -/

namespace RTsql.PlanCache

open Function RTsql.Library

/-- `PhysicalPlan`. -/
structure Plan where
  catalog : ℕ
  deriving DecidableEq, Repr

/-- Where a plan is kept: under its text in the cache, or with a prepared statement. -/
inductive Place where
  | cache (sql : String)
  | prepared (n : ℕ)
  deriving DecidableEq, Repr

/-- What a statement has done. `since` is the newest catalog whose change was complete when it
started. -/
inductive Phase where
  | idle
  | started (since : ℕ)
  | missed (since : ℕ)
  /-- `resolve_plan` and `prepare` have read the version. -/
  | stamped (version since : ℕ)
  /-- `stamp` is the version that was read, or how often the cache was cleared before the metadata
  were read. -/
  | planned (plan : Plan) (stamp since : ℕ)
  | runs (plan : Plan) (since : ℕ)
  deriving DecidableEq, Repr

structure Statement where
  place : Place
  phase : Phase
  deriving DecidableEq, Repr

/-- A schema change, with the catalog that it has made. -/
inductive Change where
  | idle
  | changed (catalog : ℕ)
  | cleared (catalog : ℕ)
  deriving DecidableEq, Repr

structure State where
  catalog : ℕ
  version : ℕ
  kept : Place → Option (Plan × ℕ)
  statements : ℕ → Statement
  changes : ℕ → Change
  /-- The newest catalog of a schema change that is complete. -/
  completed : ℕ
  /-- How often the cache was cleared. -/
  clears : ℕ

def init : State := ⟨0, 0, fun _ => none, fun _ => ⟨.prepared 0, .idle⟩, fun _ => .idle, 0, 0⟩

inductive Label where
  | start (n : ℕ) (place : Place)
  | lookUp (n : ℕ)
  | stamp (n : ℕ)
  | plan (n : ℕ)
  /-- With the entry that has to go if the cache is full. -/
  | keep (n : ℕ) (evicted : Option String)
  | change (n : ℕ)
  | clear (n : ℕ)
  | bump (n : ℕ)
  deriving DecidableEq, Repr

namespace State

def goto (s : State) (n : ℕ) (place : Place) (phase : Phase) : State :=
  { s with statements := update s.statements n ⟨place, phase⟩ }

/-- The stamp of a plan whose metadata are read now. -/
def stamp (s : State) : Place → ℕ
  | .cache _ => s.clears
  | .prepared _ => s.version

/-- A plan in the cache is always used, that of a prepared statement if the version is the same. -/
def usable (s : State) (place : Place) : Option Plan :=
  match place, s.kept place with
  | .cache _, some (plan, _) => some plan
  | .prepared _, some (plan, version) => if version = s.version then some plan else none
  | _, none => none

def keep (s : State) (place : Place) (plan : Plan) (stamp : ℕ) (evicted : Option String) : State :=
  { s with kept := update (evicted.elim s.kept fun sql => update s.kept (.cache sql) none) place (some (plan, stamp)) }

def changeCatalog (s : State) (n : ℕ) : State :=
  { s with catalog := s.catalog + 1, changes := update s.changes n (.changed (s.catalog + 1)) }

def clear (s : State) (n c : ℕ) : State :=
  { s with
    kept := fun
      | .cache _ => none
      | place => s.kept place
    clears := s.clears + 1
    changes := update s.changes n (.cleared c) }

def bump (s : State) (n c : ℕ) : State :=
  { s with version := s.version + 1, completed := max s.completed c, changes := update s.changes n .idle }

end State

/-- One step of a statement or of a schema change. -/
def step (s : State) : Label → Option State
  | .start n place =>
    match s.statements n with
    | ⟨_, .idle⟩ | ⟨_, .runs ..⟩ => some (s.goto n place (.started s.completed))
    | _ => none
  | .lookUp n =>
    match s.statements n with
    | ⟨place, .started since⟩ =>
      some (s.goto n place ((s.usable place).elim (.missed since) (.runs · since)))
    | _ => none
  | .stamp n =>
    match s.statements n with
    | ⟨.prepared m, .missed since⟩ => some (s.goto n (.prepared m) (.stamped s.version since))
    | _ => none
  | .plan n =>
    match s.statements n with
    | ⟨.cache sql, .missed since⟩ => some (s.goto n (.cache sql) (.planned ⟨s.catalog⟩ s.clears since))
    | ⟨.prepared m, .stamped version since⟩ =>
      some (s.goto n (.prepared m) (.planned ⟨s.catalog⟩ version since))
    | _ => none
  | .keep n evicted =>
    match s.statements n with
    | ⟨place, .planned plan stamp since⟩ =>
      some ((s.keep place plan stamp evicted).goto n place (.runs plan since))
    | _ => none
  | .change n =>
    match s.changes n with
    | .idle => some (s.changeCatalog n)
    | _ => none
  | .clear n =>
    match s.changes n with
    | .changed c => some (s.clear n c)
    | _ => none
  | .bump n =>
    match s.changes n with
    | .cleared c => some (s.bump n c)
    | _ => none

/-- The cache was not cleared since the statement that puts its plan there has read the metadata. -/
def Ok (s : State) : Label → Prop
  | .keep n _ =>
    match s.statements n with
    | ⟨.cache _, .planned _ clears _⟩ => clears = s.clears
    | _ => True
  | _ => True

instance (s : State) (label : Label) : Decidable (Ok s label) := by
  unfold Ok
  repeat' split
  all_goals infer_instance

/-- The plan is as new as the changes that are complete and, in the cache, as those that have
cleared it. -/
def State.Current (s : State) (place : Place) (plan : Plan) : Prop :=
  s.completed ≤ plan.catalog ∧ ∀ sql, place = .cache sql → ∀ n c, s.changes n = .cleared c →
  c ≤ plan.catalog

/-- The plan is current if its stamp is. -/
def State.Stamped (s : State) (place : Place) (plan : Plan) (stamp : ℕ) : Prop :=
  stamp ≤ s.stamp place ∧ (stamp = s.stamp place → s.Current place plan)

def State.Fresh (s : State) (x : Statement) : Prop :=
  match x.phase with
  | .idle => True
  | .started since | .missed since => since ≤ s.completed
  | .stamped version since => version ≤ s.version ∧ since ≤ s.completed
  | .planned plan stamp since => s.Stamped x.place plan stamp ∧ since ≤ plan.catalog
  | .runs plan since => since ≤ plan.catalog

structure Inv (s : State) : Prop where
  completed : s.completed ≤ s.catalog
  changes : ∀ n c, s.changes n = .changed c ∨ s.changes n = .cleared c → c ≤ s.catalog
  kept : ∀ place plan stamp, s.kept place = some (plan, stamp) → s.Stamped place plan stamp
  cached : ∀ sql plan clears, s.kept (.cache sql) = some (plan, clears) → clears = s.clears
  statements : ∀ n, s.Fresh (s.statements n)

/-- A schema change leaves what is stamped as it is. -/
structure Later (s s' : State) : Prop where
  completed : s.completed ≤ s'.completed
  version : s.version ≤ s'.version
  stamp : ∀ place, s.stamp place ≤ s'.stamp place
  current : ∀ place plan, s.stamp place = s'.stamp place → s.Current place plan → s'.Current place plan

variable {s s' : State} {n c stamp : ℕ} {place : Place} {plan : Plan} {x : Statement}

theorem Later.stamped (h : Later s s') (hp : s.Stamped place plan stamp) :
    s'.Stamped place plan stamp := by
  refine ⟨Nat.le_trans hp.1 (h.stamp place), fun hs => ?_⟩
  have hsame : s.stamp place = s'.stamp place := Nat.le_antisymm (h.stamp place) (hs ▸ hp.1)
  exact h.current place plan hsame (hp.2 (hs.trans hsame.symm))

theorem Later.fresh (h : Later s s') (hx : s.Fresh x) : s'.Fresh x := by
  obtain ⟨place, phase⟩ := x
  cases phase with
  | idle => trivial
  | started | missed => exact Nat.le_trans hx h.completed
  | stamped => exact ⟨Nat.le_trans hx.1 h.version, Nat.le_trans hx.2 h.completed⟩
  | planned => exact ⟨h.stamped hx.1, hx.2⟩
  | runs => exact hx

theorem inv_init : Inv init := ⟨Nat.le_refl 0, nofun, nofun, nofun, fun _ => trivial⟩

namespace Inv

variable (h : Inv s)

include h

theorem goto {phase : Phase} (hx : s.Fresh ⟨place, phase⟩) : Inv (s.goto n place phase) :=
  { h with statements := (forall_update_iff _ fun _ => s.Fresh).mpr ⟨hx, fun m _ => h.statements m⟩ }

theorem keep (hp : s.Stamped place plan stamp) (hclears : ∀ sql, place = .cache sql → stamp = s.clears)
    (evicted : Option String) : Inv (s.keep place plan stamp evicted) := by
  have hkept : ∀ q r, (s.keep place plan stamp evicted).kept q = some r →
      q = place ∧ r = (plan, stamp) ∨ s.kept q = some r := by
    intro q r hq
    obtain ⟨rfl, hr⟩ | ⟨-, hq⟩ := update_eq_cases hq
    · exact .inl ⟨rfl, (Option.some.inj hr).symm⟩
    · cases evicted with
      | none => exact .inr hq
      | some e =>
        obtain ⟨-, hq⟩ | ⟨-, hq⟩ := update_eq_cases hq
        · cases hq
        · exact .inr hq
  refine { h with kept := fun q p t hq => ?_, cached := fun sql p t hq => ?_ }
  · obtain ⟨rfl, ⟨⟩⟩ | hq := hkept _ _ hq
    · exact hp
    · exact h.kept q p t hq
  · obtain ⟨hplace, ⟨⟩⟩ | hq := hkept _ _ hq
    · exact hclears sql hplace.symm
    · exact h.cached sql p t hq

theorem usable (hp : s.usable place = some plan) : s.completed ≤ plan.catalog := by
  obtain ⟨stamp, hk, hs⟩ : ∃ stamp, s.kept place = some (plan, stamp) ∧ stamp = s.stamp place := by
    unfold State.usable at hp
    split at hp
    · next sql _ stamp hk =>
      cases hp
      exact ⟨stamp, hk, h.cached sql _ stamp hk⟩
    · next hk =>
      obtain ⟨hv, rfl⟩ := of_guard hp
      exact ⟨_, hk, hv⟩
    · cases hp
  exact ((h.kept place plan stamp hk).2 hs).1

theorem changeCatalog : Inv (s.changeCatalog n) := by
  have hcleared : ∀ m c, (s.changeCatalog n).changes m = .cleared c → s.changes m = .cleared c := by
    intro m c hc
    obtain ⟨-, hc⟩ | ⟨-, hc⟩ := update_eq_cases hc
    · cases hc
    · exact hc
  have hlater : Later s (s.changeCatalog n) := ⟨Nat.le_refl _, Nat.le_refl _, fun _ => Nat.le_refl _,
    fun _ _ _ hp => ⟨hp.1, fun sql hsql m c hc => hp.2 sql hsql m c (hcleared m c hc)⟩⟩
  refine ⟨Nat.le_succ_of_le h.completed, fun m c hc => ?_, fun q p t hp => hlater.stamped
    (h.kept q p t hp), h.cached, fun m => hlater.fresh (h.statements m)⟩
  obtain hc | hc := hc
  · obtain ⟨-, hc⟩ | ⟨-, hc⟩ := update_eq_cases hc
    · exact Nat.le_of_eq (Change.changed.inj hc).symm
    · exact Nat.le_succ_of_le (h.changes m c (.inl hc))
  · exact Nat.le_succ_of_le (h.changes m c (.inr (hcleared m c hc)))

theorem clear (hn : s.changes n = .changed c) : Inv (s.clear n c) := by
  have hlater : Later s (s.clear n c) := by
    refine ⟨Nat.le_refl _, Nat.le_refl _, fun place => ?_, fun place plan hs hp => ⟨hp.1, ?_⟩⟩
    · cases place with
      | cache => exact Nat.le_succ _
      | prepared => exact Nat.le_refl _
    · rintro sql rfl
      exact absurd hs (Nat.ne_of_lt (Nat.lt_succ_self _))
  refine ⟨h.completed, fun m d hd => ?_, fun q p t hp => ?_, nofun, fun m => hlater.fresh (h.statements m)⟩
  · obtain ⟨-, hd⟩ | ⟨-, hd⟩ := update_cases (P := fun x => x = Change.changed d ∨ x = .cleared d) hd
    · exact Change.cleared.inj (hd.resolve_left nofun) ▸ h.changes n c (.inl hn)
    · exact h.changes m d hd
  · cases q with
    | cache => cases hp
    | prepared => exact hlater.stamped (h.kept _ p t hp)

theorem bump (hn : s.changes n = .cleared c) : Inv (s.bump n c) := by
  have hold : ∀ m x, (s.bump n c).changes m = x → x ≠ .idle → s.changes m = x := by
    intro m x hx hne
    obtain ⟨-, hx⟩ | ⟨-, hx⟩ := update_eq_cases hx
    · exact absurd hx.symm hne
    · exact hx
  have hlater : Later s (s.bump n c) := by
    refine ⟨Nat.le_max_left .., Nat.le_succ _, fun place => ?_, fun place plan hs hp => ?_⟩
    · cases place with
      | cache => exact Nat.le_refl _
      | prepared => exact Nat.le_succ _
    · cases place with
      | cache sql =>
        exact ⟨Nat.max_le.mpr ⟨hp.1, hp.2 sql rfl n c hn⟩, fun sql hsql m d hd => hp.2 sql hsql m d (hold m _ hd nofun)⟩
      | prepared => exact absurd hs (Nat.ne_of_lt (Nat.lt_succ_self _))
  exact ⟨Nat.max_le.mpr ⟨h.completed, h.changes n c (.inr hn)⟩,
    fun m d hd => h.changes m d (hd.imp (hold m _ · nofun) (hold m _ · nofun)),
    fun q p t hp => hlater.stamped (h.kept q p t hp), h.cached, fun m => hlater.fresh (h.statements m)⟩

theorem step {a : Label} (hok : Ok s a) (hr : step s a = some s') : Inv s' := by
  have hfresh : ∀ {n x}, s.statements n = x → s.Fresh x := fun hx => hx ▸ h.statements _
  cases a <;> simp only [PlanCache.step] at hr
  case start =>
    split at hr <;> cases hr
    all_goals exact h.goto (Nat.le_refl _)
  case lookUp n =>
    split at hr <;> cases hr
    next place since hn =>
    have hsince : since ≤ s.completed := hfresh hn
    cases hp : s.usable place with
    | none => exact h.goto hsince
    | some plan => exact h.goto (Nat.le_trans hsince (h.usable hp))
  case stamp n =>
    split at hr <;> cases hr
    next hn => exact h.goto ⟨Nat.le_refl _, hfresh hn⟩
  case plan n =>
    split at hr <;> cases hr
    · next hn =>
      refine h.goto ⟨⟨Nat.le_refl _, fun _ => ⟨h.completed, ?_⟩⟩, Nat.le_trans (hfresh hn) h.completed⟩
      exact fun _ _ m c hc => h.changes m c (.inr hc)
    · next hn => exact h.goto ⟨⟨(hfresh hn).1, fun _ => ⟨h.completed, nofun⟩⟩, Nat.le_trans (hfresh hn).2 h.completed⟩
  case keep n evicted =>
    split at hr <;> cases hr
    next place plan stamp since hn =>
    -- the cache was not cleared since the metadata were read
    have hclears : ∀ sql, place = .cache sql → stamp = s.clears := by
      rintro sql rfl
      simpa only [Ok, hn] using hok
    exact (h.keep (hfresh hn).1 hclears evicted).goto (hfresh hn).2
  case change =>
    split at hr <;> cases hr
    exact h.changeCatalog
  case clear =>
    split at hr <;> cases hr
    next c hn => exact h.clear hn
  case bump =>
    split at hr <;> cases hr
    next c hn => exact h.bump hn

end Inv

/-- **No stale plan.** Every statement runs a plan that is as new as the schema changes which were
complete when it started, in every run in which the cache is not cleared between the moment a
statement reads the metadata and the moment it puts its plan into the cache. -/
theorem plans_current {as : List Label} (hok : Guarded Ok step init as)
    (hr : run step init as = some s) (n : ℕ)
    (place : Place) (plan : Plan) (since : ℕ) (hn : s.statements n = ⟨place, .runs plan since⟩) :
    since ≤ plan.catalog := by
  have h : Inv s := run_invariant (fun _ _ _ h hok hr => h.step hok hr) inv_init hok hr
  have hfresh := h.statements n
  rwa [hn] at hfresh

/-- A plan is taken from the cache; after a schema change, statement 2 and a prepared statement
build theirs anew. -/
def refreshed : List Label :=
  [.start 0 (.cache "q"), .lookUp 0, .plan 0, .keep 0 none, .start 1 (.cache "q"), .lookUp 1,
    .start 3 (.prepared 0), .lookUp 3,
    .stamp 3, .plan 3, .keep 3 none, .change 0, .clear 0, .bump 0, .start 3 (.prepared 0), .lookUp 3, .stamp 3, .plan 3,
    .keep 3 none, .start 2 (.cache "q"), .lookUp 2, .plan 2, .keep 2 (some "q")]

theorem plans_current_refreshed : ∃ s, run step init refreshed = some s ∧
    s.statements 1 = ⟨.cache "q", .runs ⟨0⟩ 0⟩ ∧ s.statements 2 = ⟨.cache "q", .runs ⟨1⟩ 1⟩ ∧
      s.statements 3 = ⟨.prepared 0, .runs ⟨1⟩ 1⟩ ∧ 1 ≤ (⟨1⟩ : Plan).catalog := by
  obtain ⟨s, hs, h₁, h₂, h₃⟩ : ∃ s, runChecked Ok step init refreshed = some s ∧
      s.statements 1 = ⟨.cache "q", .runs ⟨0⟩ 0⟩ ∧ s.statements 2 = ⟨.cache "q", .runs ⟨1⟩ 1⟩ ∧
        s.statements 3 = ⟨.prepared 0, .runs ⟨1⟩ 1⟩ := by
    decide +kernel
  obtain ⟨hok, hr⟩ := of_runChecked hs
  exact ⟨s, hr, h₁, h₂, h₃, plans_current hok hr 2 _ _ _ h₂⟩

/-- The schema changes when statement 0 has read the metadata. It puts its plan into the cache after
the change, and statement 1 takes it from there. -/
theorem stale_plan_runs : ∃ s, run step init [.start 0 (.cache "q"), .lookUp 0, .plan 0, .change 0, .clear 0, .bump 0,
    .keep 0 none, .start 1 (.cache "q"), .lookUp 1] = some s ∧ s.statements 1 = ⟨.cache "q", .runs ⟨0⟩ 1⟩ := by
  decide +kernel

end RTsql.PlanCache
