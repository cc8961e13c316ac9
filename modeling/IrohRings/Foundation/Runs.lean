import Mathlib.Data.List.Basic

/-!
# IrohRings.Foundation.Runs

**Runs of a step function** along a list of inputs. A run is `List.foldl`; what
this module adds is the two induction rules every whole-run theorem is an
instance of — an invariant of one machine and a simulation between two — both
relative to a guard that each step of the run has to meet, and the rule for runs
that only differ in inputs that do not matter.
-/

namespace Foundation

variable {σ τ ι ι' : Type*}

/-- Every step of the run of `step` from `s` along the inputs meets `guard`,
which may look at the state the step starts in. -/
def Along (step : σ → ι → σ) (guard : σ → ι → Prop) : σ → List ι → Prop
  | _, [] => True
  | s, i :: is => guard s i ∧ Along step guard (step s i) is

@[simp] theorem along_nil {step : σ → ι → σ} {guard : σ → ι → Prop} {s : σ} :
    Along step guard s [] := trivial

@[simp] theorem along_cons {step : σ → ι → σ} {guard : σ → ι → Prop} {s : σ} {i : ι}
    {is : List ι} :
    Along step guard s (i :: is) ↔ guard s i ∧ Along step guard (step s i) is := Iff.rfl

theorem along_append {step : σ → ι → σ} {guard : σ → ι → Prop} {s : σ} {is is' : List ι} :
    Along step guard s (is ++ is') ↔
      Along step guard s is ∧ Along step guard (is.foldl step s) is' := by
  induction is generalizing s with
  | nil => simp
  | cons i is ih => rw [List.cons_append, along_cons, along_cons, ih, and_assoc]; rfl

/-- A guard on the inputs alone is met along every run over such inputs. -/
theorem along_of_forall {step : σ → ι → σ} {guard : ι → Prop} {is : List ι}
    (h : ∀ i ∈ is, guard i) (s : σ) : Along step (fun _ => guard) s is := by
  induction is generalizing s with
  | nil => trivial
  | cons i is ih =>
      exact ⟨h i (by simp), ih (fun j hj => h j (by simp [hj])) (step s i)⟩

/-- **Invariant rule.** What one guarded step preserves, a guarded run
preserves. -/
theorem invariant_along {step : σ → ι → σ} {guard : σ → ι → Prop} (inv : σ → Prop)
    (hstep : ∀ s i, inv s → guard s i → inv (step s i)) {s : σ} {is : List ι}
    (hs : inv s) (hg : Along step guard s is) : inv (is.foldl step s) := by
  induction is generalizing s with
  | nil => exact hs
  | cons i is ih => exact ih (hstep s i hs hg.1) hg.2

/-- The invariant rule without a guard. -/
theorem invariant_foldl {step : σ → ι → σ} (inv : σ → Prop)
    (hstep : ∀ s i, inv s → inv (step s i)) {s : σ} (is : List ι) (hs : inv s) :
    inv (is.foldl step s) := by
  induction is generalizing s with
  | nil => exact hs
  | cons i is ih => exact ih (hstep s i hs)

/-- **Simulation rule.** Two machines that consume the same inputs stay related
when one guarded step keeps them related. The guard looks at the first
machine's state. -/
theorem simulation_along {step : σ → ι → σ} {step' : τ → ι → τ} {guard : σ → ι → Prop}
    (rel : σ → τ → Prop)
    (hstep : ∀ s t i, rel s t → guard s i → rel (step s i) (step' t i))
    {s : σ} {t : τ} {is : List ι} (hst : rel s t) (hg : Along step guard s is) :
    rel (is.foldl step s) (is.foldl step' t) := by
  induction is generalizing s t with
  | nil => exact hst
  | cons i is ih => exact ih (hstep s t i hst hg.1) hg.2

/-- **Unwinding rule.** What does not matter can be left out of a run: the inputs that
matter keep two runs related, and the others keep the first related to the second
where it is. -/
theorem related_filter {step : σ → ι → σ} {matters : ι → Bool} (rel : σ → σ → Prop)
    (hstep : ∀ s t i, matters i = true → rel s t → rel (step s i) (step t i))
    (hskip : ∀ s t i, matters i = false → rel s t → rel (step s i) t)
    {s t : σ} (is : List ι) (hst : rel s t) :
    rel (is.foldl step s) ((is.filter matters).foldl step t) := by
  induction is generalizing s t with
  | nil => exact hst
  | cons i is ih =>
      cases hi : matters i with
      | true =>
          rw [List.filter_cons_of_pos hi]
          exact ih (hstep s t i hi hst)
      | false =>
          rw [List.filter_cons_of_neg (by simp [hi])]
          exact ih (hskip s t i hi hst)

end Foundation
