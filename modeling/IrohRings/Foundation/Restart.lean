import Mathlib.Logic.Function.Iterate
import IrohRings.Foundation.Runs

/-!
# IrohRings.Foundation.Restart

**Programs that are cut off and started again.** A program works on a durable
store, one step at a time; a step changes the store as a whole or not at all.
When an attempt is cut off, the store stays and everything else is lost, and the
next attempt starts from the beginning.

What holds along every attempt and depends on the store alone holds of the store
after any number of attempts.
-/

namespace Foundation

variable {π δ : Type*}

/-- A program on a store: where it starts, and what one step does. -/
structure Restartable (π δ : Type*) where
  start : π
  step : π × δ → π × δ

namespace Restartable

variable (program : Restartable π δ)

/-- Where an attempt is after `n` steps. -/
def after (store : δ) (n : Nat) : π × δ := program.step^[n] (program.start, store)

/-- The store an attempt leaves behind that is cut off after `n` steps. -/
def attempt (store : δ) (n : Nat) : δ := (program.after store n).2

/-- The store after attempts cut off one after the other. -/
def attempts (store : δ) (cuts : List Nat) : δ := cuts.foldl program.attempt store

theorem after_succ (store : δ) (n : Nat) :
    program.after store (n + 1) = program.step (program.after store n) :=
  Function.iterate_succ_apply' _ _ _

theorem attempts_append (store : δ) (cuts cuts' : List Nat) :
    program.attempts store (cuts ++ cuts') =
      program.attempts (program.attempts store cuts) cuts' :=
  List.foldl_append

/-- What every step preserves holds all along an attempt. -/
theorem invariant_after (inv : π × δ → Prop) (hstep : ∀ s, inv s → inv (program.step s))
    {store : δ} (hstart : inv (program.start, store)) (n : Nat) :
    inv (program.after store n) := by
  induction n with
  | zero => exact hstart
  | succ n ih =>
      rw [after_succ]
      exact hstep _ ih

/-- What every attempt preserves, cut off attempts preserve. -/
theorem invariant_attempts (inv : δ → Prop)
    (hattempt : ∀ store n, inv store → inv (program.attempt store n)) {store : δ}
    (hstore : inv store) (cuts : List Nat) : inv (program.attempts store cuts) :=
  invariant_foldl inv hattempt cuts hstore

end Restartable

end Foundation
