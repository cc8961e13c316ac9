import Mathlib.Order.BoundedOrder.Basic
import Mathlib.Order.Lattice

/-!
# IrohRings.Foundation.Ranges

**Range sets**: subsets of a linear order that consist of half-open ranges, kept
as the strictly increasing list of their boundaries. One is outside before the
first boundary and crosses over at each of them; with an odd number of boundaries
the last range has no end.

Two range sets are combined by sweeping over the boundaries of both and keeping
those at which the combination changes. A combination contains the points it
should (`contains_combine`), and points are all there is to a range set
(`Ranges.ext_contains`).

A range set whose last range has an end (`Bounded`) is also given by its ranges,
the pairs of its boundaries; `Ranges.ofPairs` is the other way, from pairs in any
order, overlapping or empty as they may be.
-/

namespace Foundation

variable {α : Type} [LinearOrder α]

/-- Is `c` inside, if one is `start` before the first boundary? -/
def inside (start : Bool) : List α → α → Bool
  | [], _ => start
  | x :: xs, c => if c < x then start else inside (!start) xs c

/-- Keep the boundary `x` if something changes at it. -/
def keepIf (before after : Bool) (x : α) (xs : List α) : List α :=
  if before = after then xs else x :: xs

/-- The boundaries of the combination of two sets, from where one is `a` in the
one and `b` in the other. -/
def sweep (op : Bool → Bool → Bool) (a b : Bool) : List α → List α → List α
  | [], [] => []
  | x :: xs, [] => keepIf (op a b) (op (!a) b) x (sweep op (!a) b xs [])
  | [], y :: ys => keepIf (op a b) (op a (!b)) y (sweep op a (!b) [] ys)
  | x :: xs, y :: ys =>
    if x < y then keepIf (op a b) (op (!a) b) x (sweep op (!a) b xs (y :: ys))
    else if y < x then keepIf (op a b) (op a (!b)) y (sweep op a (!b) (x :: xs) ys)
    else keepIf (op a b) (op (!a) (!b)) x (sweep op (!a) (!b) xs ys)
  termination_by xs ys => xs.length + ys.length

omit [LinearOrder α] in
theorem forall_mem_keepIf {before after : Bool} {x : α} {xs : List α} {p : α → Prop}
    (hx : p x) (hxs : ∀ y ∈ xs, p y) : ∀ y ∈ keepIf before after x xs, p y := by
  unfold keepIf
  split
  · exact hxs
  · exact List.forall_mem_cons.mpr ⟨hx, hxs⟩

theorem pairwise_keepIf {before after : Bool} {x : α} {xs : List α}
    (hx : ∀ y ∈ xs, x < y) (hxs : xs.Pairwise (· < ·)) :
    (keepIf before after x xs).Pairwise (· < ·) := by
  unfold keepIf
  split
  · exact hxs
  · exact List.pairwise_cons.mpr ⟨hx, hxs⟩

/-- Sweeping keeps no boundary that was not there. -/
theorem forall_mem_sweep {op : Bool → Bool → Bool} {a b : Bool} {xs ys : List α} {p : α → Prop}
    (hxs : ∀ x ∈ xs, p x) (hys : ∀ y ∈ ys, p y) : ∀ z ∈ sweep op a b xs ys, p z := by
  induction a, b, xs, ys using sweep.induct with
  | case1 a b => simp [sweep]
  | case2 a b x xs ih =>
      rw [sweep]
      exact forall_mem_keepIf (hxs x (by simp)) (ih (fun z hz => hxs z (by simp [hz])) hys)
  | case3 a b y ys ih =>
      rw [sweep]
      exact forall_mem_keepIf (hys y (by simp)) (ih hxs fun z hz => hys z (by simp [hz]))
  | case4 a b x xs y ys hlt ih =>
      rw [sweep, if_pos hlt]
      exact forall_mem_keepIf (hxs x (by simp)) (ih (fun z hz => hxs z (by simp [hz])) hys)
  | case5 a b x xs y ys hge hlt ih =>
      rw [sweep, if_neg hge, if_pos hlt]
      exact forall_mem_keepIf (hys y (by simp)) (ih hxs fun z hz => hys z (by simp [hz]))
  | case6 a b x xs y ys hge hle ih =>
      rw [sweep, if_neg hge, if_neg hle]
      exact forall_mem_keepIf (hxs x (by simp))
        (ih (fun z hz => hxs z (by simp [hz])) fun z hz => hys z (by simp [hz]))

/-- Sweeping keeps the boundaries increasing. -/
theorem pairwise_sweep {op : Bool → Bool → Bool} {a b : Bool} {xs ys : List α}
    (hxs : xs.Pairwise (· < ·)) (hys : ys.Pairwise (· < ·)) :
    (sweep op a b xs ys).Pairwise (· < ·) := by
  induction a, b, xs, ys using sweep.induct with
  | case1 a b => simp [sweep]
  | case2 a b x xs ih =>
      obtain ⟨hx, hxs⟩ := List.pairwise_cons.mp hxs
      rw [sweep]
      exact pairwise_keepIf (forall_mem_sweep hx (by simp)) (ih hxs hys)
  | case3 a b y ys ih =>
      obtain ⟨hy, hys⟩ := List.pairwise_cons.mp hys
      rw [sweep]
      exact pairwise_keepIf (forall_mem_sweep (by simp) hy) (ih hxs hys)
  | case4 a b x xs y ys hlt ih =>
      obtain ⟨hx, hxs⟩ := List.pairwise_cons.mp hxs
      obtain ⟨hy, -⟩ := List.pairwise_cons.mp hys
      rw [sweep, if_pos hlt]
      refine pairwise_keepIf (forall_mem_sweep hx ?_) (ih hxs hys)
      exact List.forall_mem_cons.mpr ⟨hlt, fun z hz => hlt.trans (hy z hz)⟩
  | case5 a b x xs y ys hge hlt ih =>
      obtain ⟨hx, -⟩ := List.pairwise_cons.mp hxs
      obtain ⟨hy, hys⟩ := List.pairwise_cons.mp hys
      rw [sweep, if_neg hge, if_pos hlt]
      refine pairwise_keepIf (forall_mem_sweep ?_ hy) (ih hxs hys)
      exact List.forall_mem_cons.mpr ⟨hlt, fun z hz => hlt.trans (hx z hz)⟩
  | case6 a b x xs y ys hge hle ih =>
      obtain ⟨hx, hxs⟩ := List.pairwise_cons.mp hxs
      obtain ⟨hy, hys⟩ := List.pairwise_cons.mp hys
      have heq : x = y := le_antisymm (not_lt.mp hle) (not_lt.mp hge)
      rw [sweep, if_neg hge, if_neg hle]
      exact pairwise_keepIf (forall_mem_sweep hx (heq ▸ hy)) (ih hxs hys)

/-- A combination keeps at most the boundaries there are. -/
theorem length_sweep_le {op : Bool → Bool → Bool} {a b : Bool} {xs ys : List α} :
    (sweep op a b xs ys).length ≤ xs.length + ys.length := by
  have hkeep : ∀ {before after : Bool} {x : α} {zs : List α},
      (keepIf before after x zs).length ≤ zs.length + 1 := by
    intro before after x zs
    unfold keepIf
    split <;> simp
  induction a, b, xs, ys using sweep.induct with
  | case1 a b => simp [sweep]
  | case2 a b x xs ih =>
      rw [sweep]
      exact hkeep.trans (by simpa using ih)
  | case3 a b y ys ih =>
      rw [sweep]
      exact hkeep.trans (by simpa using ih)
  | case4 a b x xs y ys hlt ih =>
      rw [sweep, if_pos hlt]
      refine hkeep.trans ?_
      simp only [List.length_cons] at ih ⊢
      omega
  | case5 a b x xs y ys hge hlt ih =>
      rw [sweep, if_neg hge, if_pos hlt]
      refine hkeep.trans ?_
      simp only [List.length_cons] at ih ⊢
      omega
  | case6 a b x xs y ys hge hle ih =>
      rw [sweep, if_neg hge, if_neg hle]
      refine hkeep.trans ?_
      simp only [List.length_cons] at ih ⊢
      omega

/-! ### Which points are inside -/

section Inside

variable {start : Bool} {xs ys : List α} {x c : α}

/-- Before the first boundary nothing has changed. -/
theorem inside_of_lt (h : ∀ x ∈ xs, c < x) : inside start xs c = start := by
  cases xs with
  | nil => rfl
  | cons x xs => rw [inside, if_pos (h x (by simp))]

/-- Past the last boundary one is inside after an odd number of crossings. -/
theorem inside_of_le (h : ∀ x ∈ xs, x ≤ c) :
    inside start xs c = (start ^^ decide (xs.length % 2 = 1)) := by
  induction xs generalizing start with
  | nil => simp [inside]
  | cons x xs ih =>
      rw [inside, if_neg (not_lt.mpr (h x (by simp))), ih fun y hy => h y (by simp [hy]),
        List.length_cons]
      rcases Nat.mod_two_eq_zero_or_one xs.length with hpar | hpar
      · rw [hpar, show (xs.length + 1) % 2 = 1 by omega]
        cases start <;> rfl
      · rw [hpar, show (xs.length + 1) % 2 = 0 by omega]
        cases start <;> rfl

/-- A boundary that is left out would have changed nothing. -/
theorem inside_keepIf {before after : Bool} (hx : ∀ y ∈ xs, x < y) :
    inside before (keepIf before after x xs) c = if c < x then before else inside after xs c := by
  unfold keepIf
  by_cases heq : before = after
  · rw [if_pos heq]
    subst heq
    split
    · rename_i hc
      exact inside_of_lt fun y hy => hc.trans (hx y hy)
    · rfl
  · have hafter : after = !before := by
      cases before <;> cases after <;> simp_all
    rw [if_neg heq, inside, hafter]

/-- **Sweeping combines membership**, point by point. -/
theorem inside_sweep {op : Bool → Bool → Bool} {a b : Bool} (hxs : xs.Pairwise (· < ·))
    (hys : ys.Pairwise (· < ·)) :
    inside (op a b) (sweep op a b xs ys) c = op (inside a xs c) (inside b ys c) := by
  induction a, b, xs, ys using sweep.induct with
  | case1 a b => simp [sweep, inside]
  | case2 a b x xs ih =>
      obtain ⟨hx, hxs⟩ := List.pairwise_cons.mp hxs
      rw [sweep, inside_keepIf (forall_mem_sweep hx (by simp)), ih hxs hys]
      simp only [inside]
      split <;> rfl
  | case3 a b y ys ih =>
      obtain ⟨hy, hys⟩ := List.pairwise_cons.mp hys
      rw [sweep, inside_keepIf (forall_mem_sweep (by simp) hy), ih hxs hys]
      simp only [inside]
      split <;> rfl
  | case4 a b x xs y ys hlt ih =>
      obtain ⟨hx, hxs⟩ := List.pairwise_cons.mp hxs
      obtain ⟨hy, -⟩ := List.pairwise_cons.mp hys
      have hy' : ∀ z ∈ y :: ys, x < z :=
        List.forall_mem_cons.mpr ⟨hlt, fun z hz => hlt.trans (hy z hz)⟩
      rw [sweep, if_pos hlt, inside_keepIf (forall_mem_sweep hx hy'), ih hxs hys]
      split
      · rename_i hc
        rw [inside_of_lt fun z hz => hc.trans (hy' z hz), inside, if_pos hc]
      · rename_i hc
        rw [inside.eq_2 a, if_neg hc]
  | case5 a b x xs y ys hge hlt ih =>
      obtain ⟨hx, -⟩ := List.pairwise_cons.mp hxs
      obtain ⟨hy, hys⟩ := List.pairwise_cons.mp hys
      have hx' : ∀ z ∈ x :: xs, y < z :=
        List.forall_mem_cons.mpr ⟨hlt, fun z hz => hlt.trans (hx z hz)⟩
      rw [sweep, if_neg hge, if_pos hlt, inside_keepIf (forall_mem_sweep hx' hy), ih hxs hys]
      split
      · rename_i hc
        rw [inside_of_lt fun z hz => hc.trans (hx' z hz), inside, if_pos hc]
      · rename_i hc
        rw [inside.eq_2 b, if_neg hc]
  | case6 a b x xs y ys hge hle ih =>
      obtain ⟨hx, hxs'⟩ := List.pairwise_cons.mp hxs
      obtain ⟨hy, hys'⟩ := List.pairwise_cons.mp hys
      obtain rfl : x = y := le_antisymm (not_lt.mp hle) (not_lt.mp hge)
      rw [sweep, if_neg hge, if_neg hle, inside_keepIf (forall_mem_sweep hx hy), ih hxs' hys']
      simp only [inside]
      split <;> rfl

/-- Two lists of boundaries with the same points inside are the same. -/
theorem boundaries_unique (hxs : xs.Pairwise (· < ·)) (hys : ys.Pairwise (· < ·))
    (h : ∀ c, inside start xs c = inside start ys c) : xs = ys := by
  -- right at its first boundary a list has crossed over, and before it it has not
  have hfirst : ∀ {start : Bool} {x : α} {xs : List α}, (∀ y ∈ xs, x < y) →
      inside start (x :: xs) x = !start := by
    intro start x xs hx
    rw [inside, if_neg (lt_irrefl x), inside_of_lt hx]
  have hlate : ∀ {start : Bool} {x : α} {xs : List α}, (∀ y ∈ xs, x < y) →
      inside start xs x ≠ inside start (x :: xs) x := by
    intro start x xs hx
    rw [inside_of_lt hx, hfirst hx]
    cases start <;> decide
  induction xs generalizing start ys with
  | nil =>
      cases ys with
      | nil => rfl
      | cons y ys =>
          obtain ⟨hy, -⟩ := List.pairwise_cons.mp hys
          have := h y
          rw [hfirst hy] at this
          cases start <;> cases this
  | cons x xs ih =>
      obtain ⟨hx, hxs⟩ := List.pairwise_cons.mp hxs
      cases ys with
      | nil =>
          have := h x
          rw [hfirst hx] at this
          cases start <;> cases this
      | cons y ys =>
          obtain ⟨hy, hys'⟩ := List.pairwise_cons.mp hys
          obtain hlt | rfl | hlt := lt_trichotomy x y
          · have := h x
            rw [hfirst hx, inside, if_pos hlt] at this
            cases start <;> cases this
          · congr 1
            have hrest : ∀ c, inside (!start) xs c = inside (!start) ys c := by
              intro c
              by_cases hc : c < x
              · rw [inside_of_lt fun z hz => hc.trans (hx z hz),
                  inside_of_lt fun z hz => hc.trans (hy z hz)]
              · have := h c
                rwa [inside, inside, if_neg hc, if_neg hc] at this
            exact ih hxs hys' hrest
          · have := h y
            rw [hfirst hy, inside, if_pos hlt] at this
            cases start <;> cases this

end Inside

/-! ### The ranges between the boundaries -/

omit [LinearOrder α] in
/-- The ranges that have an end, as pairs of boundaries. -/
def pairUp : List α → List (α × α)
  | x :: y :: xs => (x, y) :: pairUp xs
  | _ => []

/-- The point is in the range `p.1..p.2`. -/
def Within (c : α) (p : α × α) : Prop := p.1 ≤ c ∧ c < p.2

omit [LinearOrder α] in
theorem length_pairUp (xs : List α) : (pairUp xs).length = xs.length / 2 := by
  induction xs using pairUp.induct with
  | case1 x y xs ih =>
      rw [pairUp, List.length_cons, ih, List.length_cons, List.length_cons]
      omega
  | case2 xs hshort =>
      cases xs with
      | nil => simp [pairUp]
      | cons x xs =>
          cases xs with
          | nil => simp [pairUp]
          | cons y xs => exact absurd rfl (hshort x y xs)

omit [LinearOrder α] in
theorem fst_mem_of_mem_pairUp {xs : List α} {p : α × α} (h : p ∈ pairUp xs) : p.1 ∈ xs := by
  induction xs using pairUp.induct with
  | case1 x y xs ih =>
      rw [pairUp, List.mem_cons] at h
      rcases h with rfl | h
      · exact List.mem_cons_self
      · exact List.mem_cons_of_mem _ (List.mem_cons_of_mem _ (ih h))
  | case2 xs hshort =>
      rw [pairUp] at h
      · cases h
      · exact hshort

/-- **Inside** is within one of the ranges, or in the last one if it has no end. -/
theorem inside_iff_within {xs : List α} {c : α} (hxs : xs.Pairwise (· < ·)) :
    inside false xs c = true ↔
      (∃ p ∈ pairUp xs, Within c p) ∨ (xs.length % 2 = 1 ∧ ∀ x ∈ xs, x ≤ c) := by
  induction xs using pairUp.induct with
  | case1 x y xs ih =>
      obtain ⟨hx, hxs⟩ := List.pairwise_cons.mp hxs
      obtain ⟨hy, hxs⟩ := List.pairwise_cons.mp hxs
      have hxy : x < y := hx y (by simp)
      have hpar : (x :: y :: xs).length % 2 = xs.length % 2 := by
        rw [List.length_cons, List.length_cons]
        omega
      rw [hpar, pairUp]
      simp only [List.mem_cons, exists_eq_or_imp, forall_eq_or_imp, inside]
      by_cases hcx : c < x
      · -- before everything
        rw [if_pos hcx]
        refine iff_of_false (by decide) ?_
        intro hor
        obtain (hc | ⟨p, hp, hc⟩) | ⟨-, hle, -⟩ := hor
        · exact not_lt.mpr hc.1 hcx
        · exact not_lt.mpr hc.1 (hcx.trans (hx _ (by simp [fst_mem_of_mem_pairUp hp])))
        · exact not_lt.mpr hle hcx
      · rw [if_neg hcx]
        by_cases hcy : c < y
        · rw [if_pos hcy]
          exact iff_of_true rfl (.inl (.inl ⟨not_lt.mp hcx, hcy⟩))
        · -- past the first range
          rw [if_neg hcy, Bool.not_not, ih hxs, or_iff_right fun hc : Within c (x, y) => hcy hc.2]
          simp only [not_lt.mp hcx, not_lt.mp hcy, true_and]
  | case2 xs hshort =>
      cases xs with
      | nil => simp [inside, pairUp]
      | cons x xs =>
          cases xs with
          | nil => simp [inside, pairUp]
          | cons y xs => exact absurd rfl (hshort x y xs)

/-- A set of ranges, by its boundaries. -/
structure Ranges (α : Type) [LinearOrder α] where
  boundaries : List α
  sorted : boundaries.Pairwise (· < ·)
  deriving DecidableEq

namespace Ranges

/-- Is `c` in one of the ranges? -/
def contains (r : Ranges α) (c : α) : Bool := inside false r.boundaries c

/-- No range at all. -/
def empty : Ranges α := ⟨[], .nil⟩

/-- The range `start..stop`; nothing, unless `start` is before `stop`. -/
def ofRange (start stop : α) : Ranges α :=
  if h : start < stop then ⟨[start, stop], by simpa using h⟩ else empty

/-- The points `op` picks, from whether they are in the one set and in the
other. A point in neither is not picked: `op false false` is `false`. -/
def combine (op : Bool → Bool → Bool) (r s : Ranges α) : Ranges α :=
  ⟨sweep op false false r.boundaries s.boundaries, pairwise_sweep r.sorted s.sorted⟩

/-- `r | s` -/
def union (r s : Ranges α) : Ranges α := combine (· || ·) r s

/-- `r & !s` -/
def diff (r s : Ranges α) : Ranges α := combine (fun a b => a && !b) r s

/-- Everything. -/
def all [OrderBot α] : Ranges α := ⟨[⊥], by simp⟩

/-- The union of the ranges, whatever they are and however they overlap. -/
def ofPairs (ps : List (α × α)) : Ranges α :=
  ps.foldl (fun r p => r.union (.ofRange p.1 p.2)) empty

/-- The last range has an end. -/
def Bounded (r : Ranges α) : Prop := r.boundaries.length % 2 = 0

variable {r s : Ranges α} {c start stop : α}

/-! ### Membership -/

@[simp] theorem contains_empty : (empty : Ranges α).contains c = false := rfl

@[simp] theorem contains_ofRange :
    (ofRange start stop).contains c = true ↔ Within c (start, stop) := by
  unfold ofRange Within
  split
  · rename_i h
    simp only [contains, inside]
    by_cases hstart : c < start
    · simp [hstart]
    · by_cases hstop : c < stop
      · simp [hstart, hstop, not_lt.mp hstart]
      · simp [hstart, hstop]
  · rename_i h
    refine iff_of_false (by simp) ?_
    intro hand
    rcases hand with ⟨hstart, hstop⟩
    exact h (hstart.trans_lt hstop)

theorem contains_combine {op : Bool → Bool → Bool} (hop : op false false = false) :
    (combine op r s).contains c = op (r.contains c) (s.contains c) := by
  have hsweep : inside (op false false) (sweep op false false r.boundaries s.boundaries) c =
      op (r.contains c) (s.contains c) := inside_sweep r.sorted s.sorted
  rwa [hop] at hsweep

@[simp] theorem contains_union : (r.union s).contains c = (r.contains c || s.contains c) :=
  contains_combine rfl

@[simp] theorem contains_diff : (r.diff s).contains c = (r.contains c && !s.contains c) :=
  contains_combine rfl

@[simp] theorem contains_all [OrderBot α] : (all : Ranges α).contains c = true := by
  rw [contains, all, inside, if_neg not_lt_bot]
  rfl

/-- A range set is determined by its points. -/
theorem ext_contains (h : ∀ c, r.contains c = s.contains c) : r = s := by
  obtain ⟨xs, hxs⟩ := r
  obtain ⟨ys, hys⟩ := s
  obtain rfl := boundaries_unique hxs hys h
  rfl

/-- **The union of ranges** contains what is within one of them. -/
theorem contains_ofPairs {ps : List (α × α)} :
    (ofPairs ps).contains c = true ↔ ∃ p ∈ ps, Within c p := by
  have hfold : ∀ r : Ranges α,
      (ps.foldl (fun r p => r.union (.ofRange p.1 p.2)) r).contains c = true ↔
        r.contains c = true ∨ ∃ p ∈ ps, Within c p := by
    induction ps with
    | nil => simp
    | cons p ps ih =>
        intro r
        rw [List.foldl_cons, ih, contains_union, Bool.or_eq_true, contains_ofRange]
        simp [or_assoc]
  rw [ofPairs, hfold]
  simp

/-- The union of ranges, in any order. -/
theorem ofPairs_perm {ps qs : List (α × α)} (h : ps.Perm qs) : ofPairs ps = ofPairs qs := by
  refine ext_contains fun c => ?_
  rw [Bool.eq_iff_iff, contains_ofPairs, contains_ofPairs]
  exact exists_congr fun p => and_congr_left fun _ => h.mem_iff

/-! ### Ranges with an end -/

theorem contains_iff_within :
    r.contains c = true ↔ (∃ p ∈ pairUp r.boundaries, Within c p) ∨
      (r.boundaries.length % 2 = 1 ∧ ∀ x ∈ r.boundaries, x ≤ c) :=
  inside_iff_within r.sorted

/-- **A bounded range set is the union of its ranges.** -/
theorem Bounded.ofPairs_pairUp (h : r.Bounded) : ofPairs (pairUp r.boundaries) = r := by
  refine ext_contains fun c => ?_
  rw [Bool.eq_iff_iff, contains_ofPairs, contains_iff_within, or_iff_left]
  intro hodd
  rw [h] at hodd
  cases hodd.1

/-- A range set is bounded if it does not contain the last point. -/
theorem bounded_of_not_contains_top [OrderTop α] (h : r.contains ⊤ = false) : r.Bounded := by
  rw [contains, inside_of_le fun x _ => le_top] at h
  rcases Nat.mod_two_eq_zero_or_one r.boundaries.length with hpar | hpar
  · exact hpar
  · rw [hpar] at h
    cases h

/-- A union of ranges is bounded. -/
theorem bounded_ofPairs [OrderTop α] (ps : List (α × α)) : (ofPairs ps).Bounded := by
  refine bounded_of_not_contains_top ?_
  rw [Bool.eq_false_iff, ne_eq, contains_ofPairs]
  intro hex
  rcases hex with ⟨p, -, hc⟩
  exact not_top_lt hc.2

/-- A union has at most as many ranges as were put together. -/
theorem length_boundaries_ofPairs_le (ps : List (α × α)) :
    (ofPairs ps).boundaries.length ≤ 2 * ps.length := by
  have hrange : ∀ p : α × α, (ofRange p.1 p.2).boundaries.length ≤ 2 := by
    intro p
    unfold ofRange
    split <;> simp [empty]
  have hfold : ∀ r : Ranges α,
      (ps.foldl (fun r p => r.union (.ofRange p.1 p.2)) r).boundaries.length ≤
        r.boundaries.length + 2 * ps.length := by
    induction ps with
    | nil => simp
    | cons p ps ih =>
        intro r
        have hunion : (r.union (.ofRange p.1 p.2)).boundaries.length ≤ r.boundaries.length + 2 :=
          length_sweep_le.trans (Nat.add_le_add_left (hrange p) _)
        have := ih (r.union (.ofRange p.1 p.2))
        rw [List.foldl_cons, List.length_cons]
        omega
  exact (hfold empty).trans (Nat.zero_add _).le

end Ranges

end Foundation
