import Mathlib.Data.List.Induction
import Mathlib.Tactic.Common

/-!
# Computations that raise

Rules for programs in the exception monad: when a sequence of checks succeeds,
what it can raise, what a loop that stops at the first exception preserves, and
how such a loop splits at any point of its input.
-/

namespace Library

universe u v

variable {ε : Type u} {α β σ : Type v}

/-- Raise an exception when a condition holds. -/
def raiseIf (bad : Prop) [Decidable bad] (error : ε) : Except ε Unit :=
  if bad then .error error else .ok ()

@[simp] theorem raiseIf_eq_ok
    (bad : Prop)
    [Decidable bad]
    (error : ε)
    (result : Unit) :
    raiseIf bad error = .ok result ↔ ¬bad := by
  unfold raiseIf
  split <;> simp_all

/-- A value that must be present. -/
def require (value : Option α) (error : ε) : Except ε α :=
  match value with
  | some found => .ok found
  | none => .error error

@[simp] theorem require_eq_ok
    (value : Option α)
    (error : ε)
    (result : α) :
    require value error = .ok result ↔ value = some result := by
  cases value <;> simp [require]

/-- A sequence succeeds exactly when both parts do. -/
@[simp] theorem bind_eq_ok
    (first : Except ε α)
    (next : α → Except ε β)
    (result : β) :
    (first >>= next) = .ok result ↔
      ∃ middle, first = .ok middle ∧ next middle = .ok result := by
  cases first with
  | error error =>
      constructor
      · intro impossible
        cases impossible
      · rintro ⟨middle, impossible, _⟩
        cases impossible
  | ok value =>
      constructor
      · intro succeeded
        exact ⟨value, rfl, succeeded⟩
      · rintro ⟨middle, equal, succeeded⟩
        cases equal
        exact succeeded

theorem exists_unit {property : Unit → Prop} : (∃ value, property value) ↔ property () :=
  ⟨fun ⟨_, holds⟩ => holds, fun holds => ⟨(), holds⟩⟩

@[simp] theorem pure_eq_ok
    (value result : α) :
    (pure value : Except ε α) = .ok result ↔ value = result := by
  change Except.ok value = .ok result ↔ _
  simp

@[simp] theorem throw_ne_ok
    (error : ε)
    (result : α) :
    (throw error : Except ε α) ≠ .ok result := by
  intro impossible
  cases impossible

/-- Whether a computation returned normally. -/
def succeeded : Except ε α → Bool
  | .ok _ => true
  | .error _ => false

theorem succeeded_iff
    (computation : Except ε α) :
    succeeded computation = true ↔ ∃ value, computation = .ok value := by
  cases computation <;> simp [succeeded]

/-- The value of a computation that returned normally. -/
def outcome : (computation : Except ε α) → succeeded computation = true → α
  | .ok value, _ => value

theorem eq_ok_outcome
    (computation : Except ε α)
    (returned : succeeded computation = true) :
    computation = .ok (outcome computation returned) := by
  cases computation with
  | error error => cases returned
  | ok value => rfl

/-! ## What a computation can raise -/

/-- Whatever a computation raises is of a kind. -/
def Raises (kind : ε → Prop) (computation : Except ε α) : Prop :=
  ∀ error, computation = .error error → kind error

variable {kind : ε → Prop}

@[simp] theorem raises_ok (value : α) : Raises kind (.ok value : Except ε α) := by
  rintro error ⟨⟩

@[simp] theorem raises_pure (value : α) : Raises kind (pure value : Except ε α) :=
  raises_ok value

@[simp] theorem raises_error
    (error : ε) :
    Raises kind (.error error : Except ε α) ↔ kind error := by
  constructor
  · intro raises
    exact raises error rfl
  · rintro allowed _ ⟨⟩
    exact allowed

@[simp] theorem raises_raiseIf
    (bad : Prop)
    [Decidable bad]
    (error : ε) :
    Raises kind (raiseIf bad error) ↔ (bad → kind error) := by
  unfold raiseIf
  split <;> simp_all

@[simp] theorem raises_require
    (value : Option α)
    (error : ε) :
    Raises kind (require value error) ↔ (value = none → kind error) := by
  cases value <;> simp [require]

/-- A sequence raises what its parts raise. -/
@[simp] theorem raises_bind
    (first : Except ε α)
    (next : α → Except ε β) :
    Raises kind (first >>= next) ↔
      Raises kind first ∧ ∀ middle, first = .ok middle → Raises kind (next middle) := by
  cases first with
  | error error =>
      have stops : (Except.error error >>= next) = .error error := rfl
      simp [stops]
  | ok value =>
      have continues : (Except.ok value >>= next) = next value := rfl
      simp [continues]

@[simp] theorem raises_map
    (transform : α → β)
    (computation : Except ε α) :
    Raises kind (transform <$> computation) ↔ Raises kind computation := by
  rw [← bind_pure_comp, raises_bind]
  simp

@[simp] theorem raises_ite
    (condition : Prop)
    [Decidable condition]
    (yes no : Except ε α) :
    Raises kind (if condition then yes else no) ↔
      (condition → Raises kind yes) ∧ (¬condition → Raises kind no) := by
  split <;> simp_all

/-- A computation whose missing result is an exception of its own. -/
theorem raises_bind_require
    (first : Except ε (Option α))
    (error : ε)
    (next : α → Except ε β) :
    Raises kind (first >>= fun value => require value error >>= next) ↔
      Raises kind first ∧ (first = .ok none → kind error) ∧
        ∀ value, first = .ok (some value) → Raises kind (next value) := by
  cases first with
  | error raised => simp
  | ok value => cases value <;> simp

theorem Raises.mono
    {other : ε → Prop}
    {computation : Except ε α}
    (raises : Raises kind computation)
    (weaker : ∀ error, kind error → other error) :
    Raises other computation :=
  fun error raised => weaker error (raises error raised)

theorem Raises.mapM
    {step : α → Except ε β}
    (raises : ∀ item, Raises kind (step item))
    (items : List α) :
    Raises kind (items.mapM step) := by
  induction items with
  | nil => exact raises_pure []
  | cons item rest inductionHypothesis =>
      simp only [List.mapM_cons, raises_bind, raises_pure]
      exact ⟨raises item, fun _ _ => ⟨inductionHypothesis, fun _ _ => trivial⟩⟩

/-! ## Loops -/

variable {step : σ → α → Except ε σ}

/-- A loop over a nonempty input runs its first step and then the rest. -/
theorem foldlM_cons_eq_ok
    (start finish : σ)
    (item : α)
    (rest : List α) :
    (item :: rest).foldlM step start = .ok finish ↔
      ∃ middle, step start item = .ok middle ∧
        rest.foldlM step middle = .ok finish := by
  rw [List.foldlM_cons, bind_eq_ok]

/-- What a loop raises is what one of its steps raises, after the steps before
it have run. -/
theorem raises_foldlM
    (start : σ)
    (items : List α) :
    Raises kind (items.foldlM step start) ↔
      ∀ earlier item later, items = earlier ++ item :: later →
        ∀ state, earlier.foldlM step start = .ok state → Raises kind (step state item) := by
  induction items generalizing start with
  | nil => simp
  | cons first rest inductionHypothesis =>
      rw [List.foldlM_cons, raises_bind]
      constructor
      · rintro ⟨firstRaises, restRaises⟩ earlier item later split state ran
        cases earlier with
        | nil =>
            obtain ⟨rfl, rfl⟩ := List.cons.inj split
            cases ran
            exact firstRaises
        | cons _ earlier =>
            obtain ⟨rfl, rfl⟩ := List.cons.inj split
            rw [foldlM_cons_eq_ok] at ran
            obtain ⟨middle, stepped, ran⟩ := ran
            exact (inductionHypothesis middle).mp (restRaises middle stepped) earlier item later rfl
              state ran
      · intro raises
        refine ⟨raises [] first rest rfl start rfl, fun middle stepped => ?_⟩
        rw [inductionHypothesis]
        intro earlier item later split state ran
        apply raises (first :: earlier) item later (by rw [split, List.cons_append]) state
        rw [foldlM_cons_eq_ok]
        exact ⟨middle, stepped, ran⟩

/-- A loop succeeds when each of its steps does, after the steps before it. -/
theorem foldlM_succeeds_iff
    (start : σ)
    (items : List α) :
    (∃ finish, items.foldlM step start = .ok finish) ↔
      ∀ earlier item later, items = earlier ++ item :: later →
        ∀ state, earlier.foldlM step start = .ok state → ∃ next, step state item = .ok next := by
  have succeeds : ∀ computation : Except ε σ,
      (∃ value, computation = .ok value) ↔ Raises (fun _ => False) computation := by
    intro computation
    cases computation <;> simp
  simp only [succeeds]
  exact raises_foldlM start items

theorem Raises.foldlM
    (raises : ∀ state item, Raises kind (step state item))
    (start : σ)
    (items : List α) :
    Raises kind (items.foldlM step start) :=
  (raises_foldlM start items).mpr fun _ item _ _ state _ => raises state item

/-- A loop over two inputs in a row runs over the first, then the second. -/
theorem foldlM_append_eq_ok
    (start finish : σ)
    (left right : List α) :
    (left ++ right).foldlM step start = .ok finish ↔
      ∃ middle, left.foldlM step start = .ok middle ∧
        right.foldlM step middle = .ok finish := by
  rw [List.foldlM_append, bind_eq_ok]

/-- Appending one item runs one more step. -/
theorem foldlM_concat_eq_ok
    (start finish : σ)
    (items : List α)
    (last : α) :
    (items ++ [last]).foldlM step start = .ok finish ↔
      ∃ middle, items.foldlM step start = .ok middle ∧
        step middle last = .ok finish := by
  rw [foldlM_append_eq_ok]
  simp only [foldlM_cons_eq_ok, List.foldlM_nil, pure_eq_ok, exists_eq_right]

/-- What every step preserves after the steps before it, the loop preserves. -/
theorem foldlM_invariant_along
    (invariant : σ → Prop)
    {items : List α}
    {start finish : σ}
    (preserved : ∀ earlier item later, items = earlier ++ item :: later →
      ∀ before after, earlier.foldlM step start = .ok before →
        invariant before → step before item = .ok after → invariant after)
    (initially : invariant start)
    (ran : items.foldlM step start = .ok finish) :
    invariant finish := by
  induction items generalizing start with
  | nil =>
      cases ran
      exact initially
  | cons item rest inductionHypothesis =>
      obtain ⟨middle, stepped, remaining⟩ :=
        (foldlM_cons_eq_ok start finish item rest).mp ran
      have established : invariant middle :=
        preserved [] item rest rfl start middle rfl initially stepped
      refine inductionHypothesis ?_ established remaining
      intro earlier other later position before after reached
      refine preserved (item :: earlier) other later ?_ before after ?_
      · rw [position, List.cons_append]
      · exact (foldlM_cons_eq_ok start before item earlier).mpr ⟨middle, stepped, reached⟩

/-- What every step adds to the part of the input that the loop has consumed,
the loop adds to the whole input. -/
theorem foldlM_traces
    (property : List α → σ → Prop)
    {items : List α}
    {start finish : σ}
    (preserved : ∀ earlier item later, items = earlier ++ item :: later →
      ∀ before after, property earlier before → step before item = .ok after →
        property (earlier ++ [item]) after)
    (initially : property [] start)
    (ran : items.foldlM step start = .ok finish) :
    property items finish := by
  induction items using List.reverseRecOn generalizing finish with
  | nil =>
      cases ran
      exact initially
  | append_singleton items last inductionHypothesis =>
      obtain ⟨middle, reached, stepped⟩ := (foldlM_concat_eq_ok start finish items last).mp ran
      refine preserved items last [] rfl middle finish ?_ stepped
      refine inductionHypothesis ?_ reached
      intro earlier item later position
      refine preserved earlier item (later ++ [last]) ?_
      rw [position, List.append_assoc, List.cons_append]

/-- A loop that remembers the keys it has seen and takes none twice takes distinct keys. -/
theorem foldlM_distinct
    {κ : Type*}
    {key : α → κ}
    {remembered : σ → List κ}
    {items : List α}
    {start finish : σ}
    (guarded : ∀ before item after, step before item = .ok after →
      key item ∉ remembered before ∧ remembered after = key item :: remembered before)
    (initially : remembered start = [])
    (ran : items.foldlM step start = .ok finish) :
    (items.map key).Nodup := by
  have traced : remembered finish = (items.map key).reverse ∧ (items.map key).Nodup := by
    refine foldlM_traces
      (fun taken state => remembered state = (taken.map key).reverse ∧ (taken.map key).Nodup)
      ?_ ⟨initially, List.nodup_nil⟩ ran
    rintro earlier item later _ before after ⟨seen, distinct⟩ stepped
    obtain ⟨fresh, noted⟩ := guarded before item after stepped
    rw [seen, List.mem_reverse] at fresh
    rw [noted, seen, List.map_append, List.map_singleton, List.reverse_append,
      List.nodup_append]
    refine ⟨rfl, distinct, List.pairwise_singleton _ _, ?_⟩
    rintro first inside second last rfl
    rw [List.mem_singleton.mp last] at inside
    exact fresh inside
  exact traced.2

/-- What every step preserves, the loop preserves. -/
theorem foldlM_invariant
    (invariant : σ → Prop)
    {items : List α}
    (preserved : ∀ item ∈ items, ∀ before after,
      invariant before → step before item = .ok after → invariant after)
    {start finish : σ}
    (initially : invariant start)
    (ran : items.foldlM step start = .ok finish) :
    invariant finish := by
  refine foldlM_invariant_along invariant ?_ initially ran
  intro earlier item later position before after _
  exact preserved item (by simp [position]) before after

end Library
