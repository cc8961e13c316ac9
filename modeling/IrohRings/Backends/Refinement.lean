import IrohRings.Foundation.Runs
import IrohRings.Backends.Redb.Permissions

/-!
# IrohRings.Backends.Refinement

Whole runs of the two backends, side by side: from the epoch on, and with
resource ids that a `u16` can count, a redb registry — closed and opened again
as often as one likes — answers every call as the in-memory one does
(`redb_refines_memory`).
-/

namespace IrohRings

open Foundation

variable [EndpointKeys]

/-- The same call, made in the same environment, with answers that agree. -/
structure Record.Agree (rec rec' : Record) : Prop where
  env : rec.env = rec'.env
  call : rec.call = rec'.call
  answer : rec.answer.Agree rec'.answer

/-- The event brings nothing to redb that its tables cannot hold: the instants
that expiries are compared with are not before the epoch, and the id of a
resource that a ring is added to has fewer than 65536 bytes. -/
def Event.Representable : Event → Prop
  | .call env c => unixEpoch ≤ env.now ∧ (∀ n, c = .evictExpired n → unixEpoch ≤ n) ∧ c.ShortId
  | .reopen => True

theorem Event.Representable.timeOk {env : Env} {c : Call}
    (h : (Event.call env c).Representable) (inner : Inner) : TimeOk inner env c :=
  ⟨.inl h.1, fun n hn => .inl (h.2.1 n hn)⟩

/-- The two backends in step: the tables hold the maps, and all answers so far
agree. -/
structure InStep (m : History × Inner) (d : History × RedbRegistry) : Prop where
  wellFormed : m.2.WellFormed
  rep : Rep m.2 d.2
  perms : PermsRep m.2.grants d.2.resourceRingPerms
  history : List.Forall₂ Record.Agree m.1 d.1

theorem inStep_start : InStep (Backend.start Inner) (Backend.start RedbRegistry) where
  wellFormed := Inner.wellFormed_new
  rep := rep_fresh
  perms := by
    show PermsRep Inner.new.grants _
    rw [Inner.grants_new]
    exact PermsRep.fresh
  history := .nil

/-- One event keeps the two backends in step. -/
theorem InStep.record {m : History × Inner} {d : History × RedbRegistry} (h : InStep m d)
    {e : Event} (he : e.Representable) : InStep (Backend.record m e) (Backend.record d e) := by
  cases e with
  | reopen =>
      have hsame : RedbRegistry.openDatabase d.2.close = d.2 :=
        h.rep.reopen h.wellFormed.openRing
      show InStep m (d.1, RedbRegistry.openDatabase d.2.close)
      rw [hsame]
      exact h
  | call env c =>
      have htime := he.timeOk m.2
      have hmem := h.wellFormed.step env c
      have hsim := h.rep.step h.wellFormed htime
      have hagree := h.rep.agree h.perms h.wellFormed htime
      refine ⟨hmem.wellFormed, hsim.rep, ?_, .cons ⟨rfl, rfl, hagree⟩ h.history⟩
      show PermsRep (Registry.perform env m.2 c).2.grants
        (Registry.perform env d.2 c).2.resourceRingPerms
      rw [hmem.grants, hsim.rows, Record.effect_congr fun _ => hagree]
      exact h.perms.step fun res r ps => he.2.2.of_effect

/-- **Refinement**: along every run, the redb backend and the in-memory backend
give the same answers. -/
theorem redb_refines_memory (events : List Event) (h : ∀ e ∈ events, e.Representable) :
    List.Forall₂ Record.Agree (Backend.run Inner events).1
      (Backend.run RedbRegistry events).1 := by
  have hrun : InStep (Backend.run Inner events) (Backend.run RedbRegistry events) := by
    refine simulation_along InStep ?_ inStep_start (along_of_forall h (Backend.start Inner))
    intro m d e hin he
    exact hin.record he
  exact hrun.history

omit [EndpointKeys] in
theorem redb_refines_memory_sampleRun :
    List.Forall₂ (@Record.Agree EndpointKeys.basePoint)
      (@Backend.run EndpointKeys.basePoint Inner _ sampleRun).1
      (@Backend.run EndpointKeys.basePoint RedbRegistry _ sampleRun).1 :=
  @redb_refines_memory EndpointKeys.basePoint sampleRun
    (by simp [sampleRun, Event.Representable, Call.ShortId, Env.atEpoch])

end IrohRings
