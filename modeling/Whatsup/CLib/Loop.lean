import Mathlib.Logic.Relation
import Mathlib.Order.Basic
import Mathlib.Tactic.Common

/-!
# Loops with a bound on their rounds

The body of a C loop is a function from a state to what happens next: another round, the result, or
a fault, which stands for a failed assertion or for undefined behaviour. `runLoop` runs a body for
at most a given number of rounds. `Reaches` follows the rounds of a body without a bound;
`halts_iff_of_reaches` lets a loop be run in pieces, and `Halts.unique` says that a loop has one
outcome.
-/

set_option autoImplicit false
set_option relaxedAutoImplicit false

namespace CLib

/-! ### Bodies and runs -/

/-- What the body of a loop does in one round. -/
inductive Next (σ ρ ε : Type)
  | again (state : σ)
  | result (value : ρ)
  | fault (failure : ε)

section

variable {σ ρ ε : Type} (body : σ → Next σ ρ ε)

/-- The outcome of a loop within a number of rounds, if it ends within them. -/
def runLoop : ℕ → σ → Option (Except ε ρ)
  | 0, _ => none
  | rounds + 1, state =>
    match body state with
    | .again state' => runLoop rounds state'
    | .result value => some (.ok value)
    | .fault failure => some (.error failure)

/-- A loop that ends with an outcome, in some number of rounds. -/
def Halts (state : σ) (outcome : Except ε ρ) : Prop :=
  ∃ rounds, runLoop body rounds state = some outcome

/-- The states a loop reaches. -/
def Reaches : σ → σ → Prop :=
  Relation.ReflTransGen fun state state' ↦ body state = .again state'

variable {body}

/-! ### Composition -/

/-- A loop reaches the state it starts in. -/
theorem Reaches.refl {state : σ} : Reaches body state state :=
  Relation.ReflTransGen.refl

/-- Assumes: a state that the loop reaches, and a round from there that goes on. -/
theorem Reaches.tail {first second third : σ} (h : Reaches body first second)
    (hround : body second = .again third) : Reaches body first third :=
  Relation.ReflTransGen.tail h hround

/-- What is reached from a reached state is reached. -/
theorem Reaches.trans {first second third : σ} (h : Reaches body first second)
    (h' : Reaches body second third) : Reaches body first third :=
  Relation.ReflTransGen.trans h h'

/-- Assumes: a round that goes on. The loop has the outcomes it has from the next state on. -/
theorem halts_iff_of_again {state state' : σ} {outcome : Except ε ρ}
    (h : body state = .again state') : Halts body state outcome ↔ Halts body state' outcome := by
  constructor
  · rintro ⟨rounds, hrun⟩
    cases rounds with
    | zero => exact absurd hrun (by simp [runLoop])
    | succ rounds =>
      rw [runLoop, h] at hrun
      exact ⟨rounds, hrun⟩
  · rintro ⟨rounds, hrun⟩
    refine ⟨rounds + 1, ?_⟩
    rw [runLoop, h]
    exact hrun

/-- Assumes: a state that the loop reaches. The loop has the outcomes it has from there on. -/
theorem halts_iff_of_reaches {state state' : σ} {outcome : Except ε ρ}
    (h : Reaches body state state') : Halts body state outcome ↔ Halts body state' outcome := by
  induction h with
  | refl => exact Iff.rfl
  | tail _ hstep ih => exact ih.trans (halts_iff_of_again hstep)

/-- Assumes: a round that ends the loop. The loop halts with its result. -/
theorem halts_of_result {state : σ} {value : ρ} (h : body state = .result value) :
    Halts body state (.ok value) :=
  ⟨1, by rw [runLoop, h]⟩

/-- Assumes: a round that fails. The loop halts with the fault. -/
theorem halts_of_fault {state : σ} {failure : ε} (h : body state = .fault failure) :
    Halts body state (.error failure) :=
  ⟨1, by rw [runLoop, h]⟩

/-- Assumes: a loop that ends within some rounds. It ends alike within more. -/
theorem runLoop_mono {rounds more : ℕ} {state : σ} {outcome : Except ε ρ} (hle : rounds ≤ more)
    (h : runLoop body rounds state = some outcome) : runLoop body more state = some outcome := by
  induction rounds generalizing more state with
  | zero => exact absurd h (by simp [runLoop])
  | succ rounds ih =>
    obtain ⟨more, rfl⟩ := Nat.exists_eq_add_of_lt (Nat.lt_of_succ_le hle)
    rw [runLoop] at h ⊢
    cases hbody : body state with
    | again state' =>
      rw [hbody] at h
      exact ih (by omega) h
    | result value => rwa [hbody] at h
    | fault failure => rwa [hbody] at h

/-- Assumes: a property of states that a round keeps, and that a result has if it comes from a state
with the property. The result of a loop that starts in such a state has it. -/
theorem result_of_runLoop {property : σ → Prop} {good : ρ → Prop}
    (hround : ∀ state state', property state → body state = .again state' → property state')
    (hend : ∀ state value, property state → body state = .result value → good value) (rounds : ℕ) :
    ∀ state value, property state → runLoop body rounds state = some (.ok value) → good value := by
  induction rounds with
  | zero => exact fun _ _ _ h ↦ absurd h (by simp [runLoop])
  | succ rounds ih =>
    intro state value hstate h
    rw [runLoop] at h
    cases hbody : body state with
    | again state' =>
      rw [hbody] at h
      exact ih state' value (hround state state' hstate hbody) h
    | result value' =>
      rw [hbody] at h
      obtain rfl := Except.ok.inj (Option.some.inj h)
      exact hend state value' hstate hbody
    | fault failure =>
      rw [hbody] at h
      exact absurd h (by simp)

/-- Assumes: two outcomes of one loop. They are the same. -/
theorem Halts.unique {state : σ} {outcome outcome' : Except ε ρ} (h : Halts body state outcome)
    (h' : Halts body state outcome') : outcome = outcome' := by
  obtain ⟨rounds, hrun⟩ := h
  obtain ⟨rounds', hrun'⟩ := h'
  have hmore := runLoop_mono (Nat.le_max_left rounds rounds') hrun
  rw [runLoop_mono (Nat.le_max_right rounds rounds') hrun'] at hmore
  exact (Option.some.inj hmore).symm

end

end CLib
