import IrohRings.Foundation.Runs
import IrohRings.Backends.Redb.Permissions

/-!
# IrohRings.Backends.Redb.Shadow

The **shadow** of a database: the in-memory registry that took the same calls
with their expiries clamped to the epoch. The tables hold its maps at any clock
whatever (`Shadows`), so every run of redb, however its clocks jump, is followed
by a run of the in-memory registry (`shadow_run`) — one that is proved to be
what the clamped history says.
-/

namespace IrohRings

open Foundation

/-! ### Clamping -/

theorem encodeExpiry_clamp (t : SystemTime) : encodeExpiry (clamp t) = encodeExpiry t := by
  have h : (clamp t).sinceEpoch.toNat = t.sinceEpoch.toNat := by
    rw [← toNat_sinceEpoch, Int.toNat_natCast]
  unfold encodeExpiry
  rw [h]

variable [EndpointKeys]

/-- The call with its expiry clamped to the epoch. -/
def Call.clamp : Call → Call
  | .addPeerToRing r p label expiresAt => .addPeerToRing r p label (expiresAt.map IrohRings.clamp)
  | c => c

/-- The record of the clamped call. -/
def Record.clamp (rec : Record) : Record := { rec with call := rec.call.clamp }

/-- The effect with its expiry clamped. -/
def Effect.clamp : Effect → Effect
  | .admitted r p add now => .admitted r p ⟨add.label, add.expiresAt.map IrohRings.clamp⟩ now
  | e => e

theorem Record.effect_clamp (rec : Record) : rec.clamp.effect = rec.effect.clamp := by
  have hcall : rec.call.clamp.effect rec.env = (rec.call.effect rec.env).clamp := by
    cases rec.call <;> rfl
  unfold Record.effect Record.clamp
  rw [hcall]
  split <;> rfl

@[simp] theorem Effect.clamp_onGrants (e : Effect) : e.clamp.onGrants = e.onGrants := by
  cases e <;> rfl

@[simp] theorem Effect.clamp_onRows (e : Effect) : e.clamp.onRows = e.onRows := by
  cases e <;> rfl

/-- redb cannot tell a call from its clamped version. -/
theorem perform_clamp (env : Env) (db : RedbRegistry) (c : Call) :
    Registry.perform env db c.clamp = Registry.perform env db c := by
  cases c with
  | addPeerToRing r p label expiresAt =>
      have hannotate : ∀ (db : RedbRegistry) (key : Bytes),
          db.annotate key label (expiresAt.map clamp) = db.annotate key label expiresAt := by
        intro db key
        cases expiresAt with
        | none => rfl
        | some t => simp only [Option.map_some, RedbRegistry.annotate, encodeExpiry_clamp]
      have hadd : db.addPeerToRing env r p label (expiresAt.map clamp) =
          db.addPeerToRing env r p label expiresAt := by
        simp only [RedbRegistry.addPeerToRing, hannotate]
      exact congrArg (fun out => (Answer.unit out.1, out.2)) hadd
  | _ => rfl

/-! ### What a clamped history leaves behind -/

theorem granted_clamp (h : History) :
    (fun res r => granted res r (h.map Record.clamp)) = fun res r => granted res r h := by
  induction h with
  | nil => rfl
  | cons rec h ih =>
      rw [List.map_cons, granted_cons, granted_cons, ih, rec.effect_clamp, Effect.clamp_onGrants]

theorem ringExists_clamp (h : History) (r : String) :
    RingExists (h.map Record.clamp) r ↔ RingExists h r := by
  induction h with
  | nil => rfl
  | cons rec h ih =>
      rw [List.map_cons, ringExists_cons, ringExists_cons, ih, rec.effect_clamp]
      cases rec.effect <;> simp [Effect.clamp]

/-- From the epoch on, a history and the clamped history show the same
memberships. -/
theorem agreeFrom_clamp {h : History} (hclock : ∀ rec ∈ h, unixEpoch ≤ rec.env.now) :
    Ledger.AgreeFrom unixEpoch (replay h) (replay (h.map Record.clamp)) := by
  induction h with
  | nil => exact Ledger.AgreeFrom.refl _ _
  | cons rec h ih =>
      have hagree := ih fun rec' hrec' => hclock rec' (by simp [hrec'])
      have hnow := hclock rec (by simp)
      rw [List.map_cons, replay, replay, rec.effect_clamp]
      unfold Record.effect
      split
      · cases rec.call with
        -- only here does the clamped call differ
        | addPeerToRing r p label expiresAt =>
            exact hagree.renew_clamped hnow (r, p.asBytes) label expiresAt
        | removePeerFromRing r p => exact hagree.revoke (r, p.asBytes)
        | evictExpired n => exact hagree.evict n
        | _ => exact hagree
      · exact hagree

/-- A clamped effect brings no expiry from before the epoch. -/
theorem Effect.notBefore_clamp {s : Memberships} (h : s.NotBefore unixEpoch) (e : Effect) :
    (e.clamp.onLedger s).NotBefore unixEpoch := by
  cases e with
  | admitted r p add now =>
      refine h.renew fun t ht => ?_
      obtain ⟨t', -, rfl⟩ := Option.map_eq_some_iff.mp ht
      exact unixEpoch_le_clamp t'
  | removed r p => exact h.revoke _
  | evicted n => exact h.live n
  | created | associated | dissociated | nothing => exact h

/-! ### The shadow -/

/-- `inner` is the shadow of `db`. -/
structure Shadows (inner : Inner) (db : RedbRegistry) : Prop where
  wellFormed : inner.WellFormed
  rep : Rep inner db
  notBefore : inner.leases.NotBefore unixEpoch

namespace Shadows

variable {inner : Inner} {db : RedbRegistry}

/-- No instant can tell the expiries of a shadow from the stored ones. -/
theorem comparable (h : Shadows inner db) (now : SystemTime) : Comparable inner now := by
  refine .inr fun key t ht => ?_
  have hmem := h.wellFormed.expiries key (Table.mem_iff.mpr ⟨t, ht⟩)
  exact h.notBefore key _ (Inner.leases_of_mem hmem) t ht

theorem fresh : Shadows Inner.new (RedbRegistry.openDatabase Database.empty) where
  wellFormed := Inner.wellFormed_new
  rep := rep_fresh
  notBefore := by
    rw [Inner.leases_new]
    intro key l hl
    cases hl

theorem reopen (h : Shadows inner db) : RedbRegistry.openDatabase db.close = db :=
  h.rep.reopen h.wellFormed.openRing

/-- One call of redb, and the clamped call on its shadow. -/
structure Step (inner : Inner) (db : RedbRegistry) (env : Env) (c : Call) (inner' : Inner) :
    Prop where
  shadows : Shadows inner' (Registry.perform env db c).2
  shadow : Inner.StepOk inner (Record.clamp ⟨env, c, (Registry.perform env db c).1⟩) inner'
  rows : (Registry.perform env db c).2.resourceRingPerms =
    (Record.effect ⟨env, c, (Registry.perform env db c).1⟩).onRows inner.ringNames
      db.resourceRingPerms

theorem step (h : Shadows inner db) (env : Env) (c : Call) :
    Step inner db env c (Registry.perform env inner c.clamp).2 := by
  have htime : TimeOk inner env c.clamp := ⟨h.comparable _, fun n _ => h.comparable n⟩
  have hsim := h.rep.step h.wellFormed htime
  have hmem := h.wellFormed.step env c.clamp
  -- the answers agree, so the same effect is recorded on both sides
  have heffect : Record.effect ⟨env, c.clamp, _⟩ = Record.effect ⟨env, c.clamp, _⟩ :=
    Record.effect_congr hsim.answer
  obtain ⟨-, hrep, hrows⟩ := hsim
  rw [perform_clamp] at hrep hrows heffect
  have hclamp := Record.effect_clamp ⟨env, c, (Registry.perform env db c).1⟩
  have hshadow : Inner.StepOk inner (Record.clamp ⟨env, c, (Registry.perform env db c).1⟩)
      (Registry.perform env inner c.clamp).2 := by
    refine ⟨hmem.wellFormed, ?_, ?_, fun r => ?_⟩
    · exact hmem.leases.trans (congrArg (Effect.onLedger · inner.leases) heffect)
    · exact hmem.entries.trans (congrArg (Effect.onEntries · inner.resourceRings) heffect)
    · exact (hmem.rings r).trans (or_congr_right (by rw [heffect]; rfl))
  refine ⟨⟨hshadow.wellFormed, hrep, ?_⟩, hshadow, ?_⟩
  · rw [hshadow.leases, hclamp]
    exact Effect.notBefore_clamp h.notBefore _
  · rw [← Effect.clamp_onRows, ← hclamp]
    exact hrows

end Shadows

end IrohRings
