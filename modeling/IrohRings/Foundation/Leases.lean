import Mathlib.Order.MinMax
import Mathlib.Logic.Function.Basic

/-!
# IrohRings.Foundation.Leases

**Ledgers of expiring leases**, over arbitrary types of keys, labels and
instants. A lease may carry an expiry and lapses from that instant on; nobody
removes it at that instant, so a ledger usually holds leases that are already
dead. Two notions carry everything here:

* `Ledger.live` — what a ledger shows at an instant, lapsed leases hidden;
* `Ledger.AgreeFrom` — two ledgers that show the same thing from some instant
  on, whatever dead leases either still holds. `Ledger.Trims` adds that one of
  them is the other after some evictions.

Every operation below reads a ledger only through `live`, which is why
`AgreeFrom` is preserved by all of them, why evicting dead leases is
unobservable (`AgreeFrom.evict_left`), and why an expiry may be rounded up to
any instant that is already past (`AgreeFrom.renew_clamped`).
-/

namespace Foundation

variable {κ ν τ : Type}

/-- A lease: an optional label, and the instant it lapses at, if any. -/
@[ext]
structure Lease (ν τ : Type) where
  label : Option ν
  expiry : Option τ

namespace Lease

/-- The lease has lapsed as of `now`. The expiry itself already counts. -/
def Lapsed [LE τ] (l : Lease ν τ) (now : τ) : Prop := ∃ t ∈ l.expiry, t ≤ now

/-- A lease that was granted without label or expiry. -/
def bare : Lease ν τ := ⟨none, none⟩

/-- Overlay a renewal: a given label or expiry replaces the one in place, an
absent one leaves it untouched. -/
def amend (l : Lease ν τ) (label : Option ν) (expiry : Option τ) : Lease ν τ :=
  ⟨label.or l.label, expiry.or l.expiry⟩

theorem Lapsed.mono [Preorder τ] {l : Lease ν τ} {now later : τ} (h : l.Lapsed now)
    (hle : now ≤ later) : l.Lapsed later := by
  obtain ⟨t, ht, hnow⟩ := h
  exact ⟨t, ht, hnow.trans hle⟩

end Lease

/-- A ledger: the lease each key holds, dead or alive. -/
abbrev Ledger (κ ν τ : Type) : Type := κ → Option (Lease ν τ)

namespace Ledger

section Operations

variable [LE τ]

open Classical in
/-- What the ledger shows at `now`: the leases that have not lapsed. -/
noncomputable def live (s : Ledger κ ν τ) (now : τ) : Ledger κ ν τ :=
  fun k => (s k).filter fun l => ¬ l.Lapsed now

variable [DecidableEq κ]

/-- Grant or renew the lease of `k` at `now`. A lapsed lease counts as absent,
so renewing it starts from a bare one. -/
noncomputable def renew (s : Ledger κ ν τ) (now : τ) (k : κ) (label : Option ν)
    (expiry : Option τ) : Ledger κ ν τ :=
  Function.update s k (some (((s.live now k).getD Lease.bare).amend label expiry))

/-- End the lease of `k`. -/
def revoke (s : Ledger κ ν τ) (k : κ) : Ledger κ ν τ := Function.update s k none

omit [DecidableEq κ] in
theorem live_eq_some {s : Ledger κ ν τ} {now : τ} {k : κ} {l : Lease ν τ} :
    s.live now k = some l ↔ s k = some l ∧ ¬ l.Lapsed now := by
  simp [live, Option.filter_eq_some_iff]

omit [DecidableEq κ] in
theorem live_congr {s s' : Ledger κ ν τ} {now : τ} {k : κ} (h : s k = s' k) :
    s.live now k = s'.live now k := by
  simp only [live, h]

omit [DecidableEq κ] in
/-- A key shows nothing exactly when it holds no lease or a lapsed one. -/
theorem live_eq_none {s : Ledger κ ν τ} {now : τ} {k : κ} :
    s.live now k = none ↔ ∀ l, s k = some l → l.Lapsed now := by
  simp [live, Option.filter_eq_none_iff]

theorem renew_self {s : Ledger κ ν τ} {now : τ} {k : κ} {label : Option ν}
    {expiry : Option τ} :
    s.renew now k label expiry k =
      some (((s.live now k).getD Lease.bare).amend label expiry) := by
  simp [renew]

theorem renew_ne {s : Ledger κ ν τ} {now : τ} {k k' : κ} {label : Option ν}
    {expiry : Option τ} (h : k' ≠ k) : s.renew now k label expiry k' = s k' := by
  simp [renew, h]

/-- No lease on the ledger expires before `c`. -/
def NotBefore (c : τ) (s : Ledger κ ν τ) : Prop :=
  ∀ k l, s k = some l → ∀ t ∈ l.expiry, c ≤ t

namespace NotBefore

variable {c : τ} {s : Ledger κ ν τ}

omit [DecidableEq κ] in
theorem live (h : NotBefore c s) (now : τ) : NotBefore c (s.live now) :=
  fun k l hl => h k l (live_eq_some.mp hl).1

theorem revoke (h : NotBefore c s) (k : κ) : NotBefore c (s.revoke k) := by
  intro k' l hl
  by_cases hk : k' = k
  · subst hk
    simp [Ledger.revoke] at hl
  · exact h k' l (by simpa [Ledger.revoke, hk] using hl)

theorem renew (h : NotBefore c s) {now : τ} {k : κ} {label : Option ν} {expiry : Option τ}
    (he : ∀ t ∈ expiry, c ≤ t) : NotBefore c (s.renew now k label expiry) := by
  intro k' l hl t ht
  by_cases hk : k' = k
  · subst hk
    rw [renew_self, Option.some.injEq] at hl
    subst hl
    cases expiry with
    | some t' =>
        obtain rfl := Option.some.inj ht
        exact he t' rfl
    | none =>
        -- the expiry in place stays
        cases hlive : s.live now k' with
        | none => simp [Lease.amend, Lease.bare, hlive] at ht
        | some l' =>
            refine h k' l' (live_eq_some.mp hlive).1 t ?_
            simpa [Lease.amend, hlive] using ht
  · rw [renew_ne hk] at hl
    exact h k' l hl t ht

end NotBefore

end Operations

section Agreement

variable [LinearOrder τ]

/-- What is live at two instants is live at the later one. -/
theorem live_live (s : Ledger κ ν τ) (n now : τ) :
    (s.live n).live now = s.live (max n now) := by
  funext k
  refine Option.ext fun l => ?_
  simp only [live_eq_some]
  constructor
  · intro hlive
    rcases hlive with ⟨⟨hl, hn⟩, hnow⟩
    refine ⟨hl, fun hmax => ?_⟩
    -- the later of the two instants is one of them
    rcases max_choice n now with h | h
    · exact hn (h ▸ hmax)
    · exact hnow (h ▸ hmax)
  · intro hlive
    rcases hlive with ⟨hl, hmax⟩
    exact ⟨⟨hl, fun h => hmax (h.mono (le_max_left n now))⟩,
      fun h => hmax (h.mono (le_max_right n now))⟩

/-- The two ledgers show the same leases at every instant from `c` on. -/
def AgreeFrom (c : τ) (s s' : Ledger κ ν τ) : Prop :=
  ∀ now, c ≤ now → s.live now = s'.live now

namespace AgreeFrom

variable {c : τ} {s s' : Ledger κ ν τ}

theorem refl (c : τ) (s : Ledger κ ν τ) : AgreeFrom c s s := fun _ _ => rfl

theorem mono {c' : τ} (h : AgreeFrom c s s') (hc : c ≤ c') : AgreeFrom c' s s' :=
  fun now hnow => h now (hc.trans hnow)

/-- Evicting on both sides, at any instant whatever. -/
theorem evict (h : AgreeFrom c s s') (n : τ) : AgreeFrom c (s.live n) (s'.live n) := by
  intro now hnow
  rw [live_live, live_live]
  exact h _ (hnow.trans (le_max_right n now))

/-- **Eviction is unobservable**: evicting on one side only, at an instant that
has passed, changes nothing that is shown from there on. -/
theorem evict_left {n : τ} (h : AgreeFrom c s s') (hn : n ≤ c) :
    AgreeFrom c (s.live n) s' := by
  intro now hnow
  rw [live_live, max_eq_right (hn.trans hnow)]
  exact h now hnow

variable [DecidableEq κ]

theorem update (h : AgreeFrom c s s') (k : κ) {o o' : Option (Lease ν τ)}
    (ho : ∀ now, c ≤ now → live (fun _ : κ => o) now k = live (fun _ : κ => o') now k) :
    AgreeFrom c (Function.update s k o) (Function.update s' k o') := by
  intro now hnow
  funext k'
  by_cases hk : k' = k
  · subst hk
    calc live (Function.update s k' o) now k'
        = live (fun _ => o) now k' := live_congr (by simp)
      _ = live (fun _ => o') now k' := ho now hnow
      _ = live (Function.update s' k' o') now k' := live_congr (by simp)
  · -- any other key has the lease it had
    calc live (Function.update s k o) now k'
        = live s now k' := live_congr (by simp [hk])
      _ = live s' now k' := congrFun (h now hnow) k'
      _ = live (Function.update s' k o') now k' := live_congr (by simp [hk])

theorem revoke (h : AgreeFrom c s s') (k : κ) :
    AgreeFrom c (s.revoke k) (s'.revoke k) :=
  h.update k fun _ _ => rfl

/-- Renewing on both sides, the right one with its expiry rounded up to `c`:
an expiry before `c` is dead from `c` on either way. -/
theorem renew_clamped (h : AgreeFrom c s s') {now : τ} (hnow : c ≤ now) (k : κ)
    (label : Option ν) (expiry : Option τ) :
    AgreeFrom c (s.renew now k label expiry)
      (s'.renew now k label (expiry.map (max c))) := by
  unfold Ledger.renew
  rw [h now hnow]
  refine h.update k fun later hlater => ?_
  cases expiry with
  | none => rfl
  | some t =>
      rcases le_total c t with hct | htc
      · simp [max_eq_right hct]
      · -- both leases are dead from `c` on
        have hdead : ∀ t', t' ≤ c → ∀ b : Lease ν τ,
            live (fun _ : κ => some (b.amend label (some t'))) later k = none := by
          intro t' ht' b
          rw [live_eq_none]
          intro l h'
          cases h'
          exact ⟨t', rfl, ht'.trans hlater⟩
        simp only [Option.map_some, max_eq_left htc]
        rw [hdead t htc, hdead c le_rfl]

/-- Renewing on both sides with the same arguments. -/
theorem renew (h : AgreeFrom c s s') {now : τ} (hnow : c ≤ now) (k : κ)
    (label : Option ν) (expiry : Option τ) :
    AgreeFrom c (s.renew now k label expiry) (s'.renew now k label expiry) := by
  unfold Ledger.renew
  rw [h now hnow]
  exact h.update k fun _ _ => rfl

end AgreeFrom

/-- `s` is `s'` after some evictions: it holds no other leases, and what is
missing is dead from `c` on. -/
structure Trims (c : τ) (s s' : Ledger κ ν τ) : Prop where
  agree : AgreeFrom c s s'
  within : ∀ k l, s k = some l → s' k = some l

namespace Trims

variable {c : τ} {s s' : Ledger κ ν τ}

theorem refl (c : τ) (s : Ledger κ ν τ) : Trims c s s := ⟨AgreeFrom.refl c s, fun _ _ h => h⟩

theorem mono {c' : τ} (h : Trims c s s') (hc : c ≤ c') : Trims c' s s' :=
  ⟨h.agree.mono hc, h.within⟩

theorem evict (h : Trims c s s') (n : τ) : Trims c (s.live n) (s'.live n) := by
  refine ⟨h.agree.evict n, fun k l hl => ?_⟩
  obtain ⟨hs, hdead⟩ := live_eq_some.mp hl
  exact live_eq_some.mpr ⟨h.within k l hs, hdead⟩

theorem evict_left {n : τ} (h : Trims c s s') (hn : n ≤ c) : Trims c (s.live n) s' :=
  ⟨h.agree.evict_left hn, fun k l hl => h.within k l (live_eq_some.mp hl).1⟩

variable [DecidableEq κ]

theorem revoke (h : Trims c s s') (k : κ) : Trims c (s.revoke k) (s'.revoke k) := by
  refine ⟨h.agree.revoke k, fun k' l hl => ?_⟩
  by_cases hk : k' = k
  · simp [Ledger.revoke, hk] at hl
  · simp only [Ledger.revoke, Function.update_of_ne hk] at hl ⊢
    exact h.within k' l hl

theorem renew (h : Trims c s s') {now : τ} (hnow : c ≤ now) (k : κ) (label : Option ν)
    (expiry : Option τ) : Trims c (s.renew now k label expiry) (s'.renew now k label expiry) := by
  refine ⟨h.agree.renew hnow k label expiry, fun k' l hl => ?_⟩
  by_cases hk : k' = k
  · subst hk
    -- both renewals start from what is live, which is the same on both sides
    rwa [renew_self, ← h.agree now hnow, ← renew_self]
  · rw [renew_ne hk] at hl ⊢
    exact h.within k' l hl

end Trims

end Agreement

end Ledger

end Foundation
