import IrohRings.Backends.Redb.Shadow

/-!
# IrohRings.Backends.Histories

What a registry answers is what the calls made so far say: `hasPermission` is
`Allowed`, and `listRingPeers` lists the members (`ListsMembers`).

The in-memory registry follows its history at any clock. A redb registry follows
its *clamped* history at any clock (`shadow_run`), and therefore its history
from the epoch on, where the two show the same.
-/

namespace IrohRings

open Foundation

variable [EndpointKeys]

/-- The listing of a ring shows each peer at most once, and shows the members of
the ring, with the label and the expiry in force. -/
def ListsMembers (h : History) (ringName : String) (now : SystemTime)
    (out : Outcome (List RingMember)) : Prop :=
  ∃ listed, out = .ok listed ∧ (listed.map RingMember.peer).Nodup ∧
    ∀ m : RingMember, m ∈ listed ↔
      ∃ adds, membership ringName m.peer h = some adds ∧ lapsed adds now = false ∧
        m.label = shownLabel adds ∧ m.expiresAt = inForce adds

/-- Every clock reading of the event is at or after the epoch. -/
def Event.AfterEpoch : Event → Prop
  | .call env _ => unixEpoch ≤ env.now
  | .reopen => True

/-- An association is only made for a resource id a `u16` can count. -/
def Event.ShortId : Event → Prop
  | .call _ c => c.ShortId
  | .reopen => True

/-! ### The in-memory registry follows its history -/

namespace Inner

/-- The maps are what the history says. -/
structure Traces (inner : Inner) (h : History) : Prop where
  wellFormed : inner.WellFormed
  leases : inner.leases = replay h
  grants : inner.grants = fun res r => granted res r h
  rings : ∀ r, r ∈ inner.rings ↔ RingExists h r

theorem traces_new : Inner.new.Traces [] where
  wellFormed := wellFormed_new
  leases := leases_new
  grants := grants_new
  rings r := by
    rw [Inner.new, Table.mem_insert_iff]
    simp [RingExists]

theorem Traces.step {inner inner' : Inner} {h : History} (ht : inner.Traces h) {rec : Record}
    (hs : StepOk inner rec inner') : inner'.Traces (rec :: h) where
  wellFormed := hs.wellFormed
  leases := by rw [hs.leases, ht.leases, replay]
  grants := by rw [hs.grants, ht.grants, granted_cons]
  rings r := by rw [hs.rings, ht.rings, ringExists_cons]

theorem traces_run (events : List Event) :
    (Backend.run Inner events).2.Traces (Backend.run Inner events).1 := by
  refine invariant_foldl (fun m : History × Inner => m.2.Traces m.1) ?_ events traces_new
  rintro ⟨h, inner⟩ e ht
  cases e with
  | reopen => exact ht
  | call env c => exact ht.step (ht.wellFormed.step env c)

variable {inner : Inner} {h : History}

/-- Access, for a registry whose grants are those of the history and that shows
the same memberships at the clock of the query. -/
theorem WellFormed.hasPermission_iff_allowed (hwf : inner.WellFormed)
    (hgrants : inner.grants = fun res r => granted res r h) {env : Env}
    (hlive : inner.leases.live env.now = (replay h).live env.now) (p : EndpointId)
    (res : Bytes) (q : Permission) :
    inner.hasPermission env p res q = .ok true ↔ Allowed h p res q env.now := by
  rw [hwf.hasPermission_iff, hgrants, hlive]
  simp only [Allowed, isMember_iff]
  refine exists_congr fun r => ?_
  rw [← exists_and_right]
  exact exists_congr fun ps => by rw [and_assoc]

theorem WellFormed.listsMembers (hwf : inner.WellFormed) {env : Env}
    (hlive : inner.leases.live env.now = (replay h).live env.now) {r : String}
    (hr : r ∈ inner.rings) : ListsMembers h r env.now (inner.listRingPeers env r) := by
  obtain ⟨listed, hok, hnodup, hmem⟩ := hwf.listRingPeers_spec env hr
  refine ⟨listed, hok, hnodup, fun m => ?_⟩
  rw [hmem, hlive, live_replay_eq_some]
  simp only [leaseOf, Lease.mk.injEq]

end Inner

/-! ### The shadow of a redb registry follows the clamped history -/

/-- `inner` is the shadow of the database, and follows the clamped history. -/
structure Shadowed (d : History × RedbRegistry) (inner : Inner) : Prop where
  shadows : Shadows inner d.2
  traces : inner.Traces (d.1.map Record.clamp)

namespace Shadowed

variable {d : History × RedbRegistry} {inner : Inner}

theorem start : Shadowed (Backend.start RedbRegistry) Inner.new :=
  ⟨Shadows.fresh, Inner.traces_new⟩

theorem reopen (h : Shadowed d inner) : Backend.record d .reopen = d :=
  congrArg (Prod.mk d.1) h.shadows.reopen

theorem call (h : Shadowed d inner) (env : Env) (c : Call) :
    Shadowed (Backend.record d (.call env c)) (Registry.perform env inner c.clamp).2 :=
  have hstep := h.shadows.step env c
  ⟨hstep.shadows, h.traces.step hstep.shadow⟩

theorem grants (h : Shadowed d inner) : inner.grants = fun res r => granted res r d.1 := by
  rw [h.traces.grants, granted_clamp]

theorem rings (h : Shadowed d inner) (r : String) : r ∈ inner.rings ↔ RingExists d.1 r := by
  rw [h.traces.rings, ringExists_clamp]

/-- From the epoch on, the shadow shows what the history itself says. -/
theorem live (h : Shadowed d inner) (hclock : ∀ rec ∈ d.1, unixEpoch ≤ rec.env.now)
    {now : SystemTime} (hnow : unixEpoch ≤ now) :
    inner.leases.live now = (replay d.1).live now := by
  rw [h.traces.leases]
  exact (agreeFrom_clamp hclock now hnow).symm

/-- An event takes a shadow to a shadow. -/
theorem exists_record (h : Shadowed d inner) (e : Event) :
    ∃ inner', Shadowed (Backend.record d e) inner' := by
  cases e with
  | reopen => exact ⟨inner, by rw [h.reopen]; exact h⟩
  | call env c => exact ⟨_, h.call env c⟩

end Shadowed

/-- **Every run of redb has a shadow**, at any clocks and with any arguments. -/
theorem shadow_run (events : List Event) :
    ∃ inner, Shadowed (Backend.run RedbRegistry events) inner := by
  refine invariant_foldl (fun d => ∃ inner, Shadowed d inner) ?_ events
    ⟨Inner.new, Shadowed.start⟩
  intro d e hinv
  rcases hinv with ⟨inner, h⟩
  exact h.exists_record e

/-- With short resource ids, the permission rows are those of the grants too. -/
theorem shadow_run_perms (events : List Event) (hid : ∀ e ∈ events, e.ShortId) :
    ∃ inner, Shadowed (Backend.run RedbRegistry events) inner ∧
      PermsRep inner.grants (Backend.run RedbRegistry events).2.resourceRingPerms := by
  refine invariant_along (fun d : History × RedbRegistry =>
      ∃ inner, Shadowed d inner ∧ PermsRep inner.grants d.2.resourceRingPerms) ?_
    ⟨Inner.new, Shadowed.start, ?_⟩ (along_of_forall hid (Backend.start RedbRegistry))
  · intro d e hinv hid
    rcases hinv with ⟨inner, h, hperms⟩
    cases e with
    | reopen => exact ⟨inner, by rw [h.reopen]; exact ⟨h, hperms⟩⟩
    | call env c =>
        have hstep := h.shadows.step env c
        refine ⟨_, h.call env c, ?_⟩
        show PermsRep _ (Registry.perform env d.2 c).2.resourceRingPerms
        rw [hstep.shadow.grants, hstep.rows, Record.effect_clamp, Effect.clamp_onGrants]
        exact hperms.step fun res r ps => hid.of_effect
  · rw [Inner.grants_new]
    exact PermsRep.fresh

/-- A history records the calls among the events. -/
theorem call_of_record {σ : Type} [Backend σ] (events : List Event) :
    ∀ rec ∈ (Backend.run σ events).1, Event.call rec.env rec.call ∈ events := by
  refine invariant_along
    (fun d : History × σ => ∀ rec ∈ d.1, Event.call rec.env rec.call ∈ events) ?_ ?_
    (along_of_forall (fun e he => he) (Backend.start σ))
  · intro d e hd he
    cases e with
    | reopen => exact hd
    | call env c =>
        intro rec hmem
        rcases hmem with _ | ⟨_, hrec⟩
        · exact he
        · exact hd rec hrec
  · exact fun rec hrec => absurd hrec List.not_mem_nil

/-! ### Access and listings are what the history says -/

/-- **Access**: `hasPermission` says `Ok(true)` exactly when the calls made so
far allow it. -/
theorem hasPermission_eq_history (events : List Event) :
    (∀ env p res q,
      Registry.hasPermission env (Backend.run Inner events).2 p res q = .ok true ↔
        Allowed (Backend.run Inner events).1 p res q env.now) ∧
    ((∀ e ∈ events, e.AfterEpoch ∧ e.ShortId) → ∀ env p res q, unixEpoch ≤ env.now →
      (Registry.hasPermission env (Backend.run RedbRegistry events).2 p res q = .ok true ↔
        Allowed (Backend.run RedbRegistry events).1 p res q env.now)) := by
  constructor
  · intro env p res q
    have ht := Inner.traces_run events
    exact ht.wellFormed.hasPermission_iff_allowed ht.grants (by rw [ht.leases]) p res q
  · intro hevents env p res q hnow
    obtain ⟨inner, hs, hperms⟩ := shadow_run_perms events fun e he => (hevents e he).2
    have hclock : ∀ rec ∈ (Backend.run RedbRegistry events).1, unixEpoch ≤ rec.env.now :=
      fun rec hrec => (hevents _ (call_of_record events rec hrec)).1
    -- redb answers as its shadow, which follows the clamped history
    have hagree := hs.shadows.rep.hasPermission_agree hperms hs.shadows.wellFormed
      (hs.shadows.comparable env.now) p res q
    rw [← hs.shadows.wellFormed.hasPermission_iff_allowed hs.grants (hs.live hclock hnow) p
      res q, hagree]
    rfl

omit [EndpointKeys] in
theorem hasPermission_eq_history_sampleRun :
    @Registry.hasPermission EndpointKeys.basePoint RedbRegistry _ Env.atEpoch
        (@Backend.run EndpointKeys.basePoint RedbRegistry _ sampleRun).2 EndpointId.basePoint
        [0x61] .write = .ok true ↔
      @Allowed EndpointKeys.basePoint
        (@Backend.run EndpointKeys.basePoint RedbRegistry _ sampleRun).1 EndpointId.basePoint
        [0x61] .write Env.atEpoch.now :=
  (@hasPermission_eq_history EndpointKeys.basePoint sampleRun).2
    (by simp [sampleRun, Event.AfterEpoch, Event.ShortId, Call.ShortId, Env.atEpoch])
    Env.atEpoch EndpointId.basePoint [0x61] .write le_rfl

/-- **The life cycle of memberships**, as `listRingPeers` shows it. -/
theorem listRingPeers_eq_history (events : List Event) :
    (∀ env r, RingExists (Backend.run Inner events).1 r →
      ListsMembers (Backend.run Inner events).1 r env.now
        (Registry.listRingPeers env (Backend.run Inner events).2 r)) ∧
    ((∀ e ∈ events, e.AfterEpoch) → ∀ env r, unixEpoch ≤ env.now →
      RingExists (Backend.run RedbRegistry events).1 r →
      ListsMembers (Backend.run RedbRegistry events).1 r env.now
        (Registry.listRingPeers env (Backend.run RedbRegistry events).2 r)) := by
  constructor
  · intro env r hr
    have ht := Inner.traces_run events
    exact ht.wellFormed.listsMembers (by rw [ht.leases]) ((ht.rings r).mpr hr)
  · intro hevents env r hnow hr
    obtain ⟨inner, hs⟩ := shadow_run events
    have hclock : ∀ rec ∈ (Backend.run RedbRegistry events).1, unixEpoch ≤ rec.env.now :=
      fun rec hrec => hevents _ (call_of_record events rec hrec)
    have hlist := hs.shadows.rep.listRingPeers hs.shadows.wellFormed
      (hs.shadows.comparable env.now) r
    show ListsMembers _ r env.now ((Backend.run RedbRegistry events).2.listRingPeers env r)
    rw [hlist]
    exact hs.shadows.wellFormed.listsMembers (hs.live hclock hnow) ((hs.rings r).mpr hr)

/-- A membership that lapses and is evicted, one that starts after it, and a call that
labels this one. -/
def lifeCycleRun : List (@Event EndpointKeys.basePoint) :=
  letI := EndpointKeys.basePoint
  [.call (.after 0) (.createRing "team"),
    .call (.after 1) (.addPeerToRing "team" .basePoint (some "laptop") (some (.afterEpoch 10))),
    .call (.after 20) (.evictExpired (.afterEpoch 15)),
    .call (.after 21) (.addPeerToRing "team" .basePoint none (some (.afterEpoch 40))),
    .call (.after 22) (.addPeerToRing "team" .basePoint (some "phone") none)]

omit [EndpointKeys] in
set_option maxRecDepth 10000 in
/-- The member is listed with the new label and the new expiry. -/
theorem listRingPeers_eq_history_lifeCycle :
    letI := EndpointKeys.basePoint
    Registry.listRingPeers (.after 30) (Backend.run RedbRegistry lifeCycleRun).2 "team" =
        .ok [⟨.basePoint, some "phone", some (.afterEpoch 40)⟩] ∧
      ListsMembers (Backend.run RedbRegistry lifeCycleRun).1 "team" (Env.after 30).now
        (Registry.listRingPeers (.after 30) (Backend.run RedbRegistry lifeCycleRun).2 "team") := by
  let inst := EndpointKeys.basePoint
  refine ⟨rfl, (listRingPeers_eq_history lifeCycleRun).2 ?_ (.after 30) "team"
    (SystemTime.epoch_le_afterEpoch 30) (.inr ?_)⟩
  · simp [lifeCycleRun, Event.AfterEpoch, Env.after, SystemTime.epoch_le_afterEpoch]
  · exact ⟨⟨.after 0, .createRing "team", .unit (.ok ())⟩, List.mem_of_getElem? (i := 4) rfl, rfl⟩

end IrohRings
