import IrohRings.Backends.Errors

/-!
# IrohRings.Backends.Confinement

Whether a peer has access to a resource is its own business and that of the resource:
calls about other peers, other resources, and calls that only read can be put into a run
or left out of it, anywhere and in any number, and every later answer about that peer and
that resource is the same (`access_is_confined`).
-/

namespace IrohRings

open Foundation

variable [EndpointKeys]

/-! ### What has to do with an access -/

/-- The call is about the peer's memberships, the resource's rings, or the rings and
memberships there are. -/
def Call.Concerns (peer : EndpointId) (resourceId : Bytes) : Call → Bool
  | .createRing _ | .evictExpired _ => true
  | .addPeerToRing _ p _ _ | .removePeerFromRing _ p => p = peer
  | .addRingToResource res _ _ | .removeRingFromResource res => res = resourceId
  | .listRingPeers _ | .listRings | .listResourceRings _ | .hasPermission _ _ _ => false

def Event.Concerns (peer : EndpointId) (resourceId : Bytes) : Event → Bool
  | .call _ c => c.Concerns peer resourceId
  | .reopen => true

/-- Two histories show the same about the peer and the resource. -/
structure SameAccess (peer : EndpointId) (resourceId : Bytes) (h h' : History) : Prop where
  rings : RingExists h = RingExists h'
  granted : ∀ r, granted resourceId r h = granted resourceId r h'
  membership : ∀ r, membership r peer h = membership r peer h'

namespace SameAccess

variable {peer : EndpointId} {res : Bytes} {h h' : History}

theorem refl (h : History) : SameAccess peer res h h := ⟨rfl, fun _ => rfl, fun _ => rfl⟩

theorem allowed_iff (hs : SameAccess peer res h h') (q : Permission) (now : SystemTime) :
    Allowed h peer res q now ↔ Allowed h' peer res q now := by
  simp only [Allowed, IsMember, hs.granted, hs.membership]

/-- Calls that did the same keep histories the same. -/
theorem cons {rec rec' : Record} (hs : SameAccess peer res h h')
    (heffect : rec.effect = rec'.effect) : SameAccess peer res (rec :: h) (rec' :: h') where
  rings := funext fun r => by rw [eq_iff_iff, ringExists_cons, ringExists_cons, heffect, hs.rings]
  granted r := by rw [IrohRings.granted, IrohRings.granted, heffect, hs.granted]
  membership r := by rw [IrohRings.membership, IrohRings.membership, heffect, hs.membership]

theorem trans {h'' : History} (hs : SameAccess peer res h h') (hs' : SameAccess peer res h' h'') :
    SameAccess peer res h h'' where
  rings := hs.rings.trans hs'.rings
  granted r := (hs.granted r).trans (hs'.granted r)
  membership r := (hs.membership r).trans (hs'.membership r)

/-- A call that has nothing to do with the access is not seen. -/
theorem of_unconcerned (rec : Record) (hother : rec.call.Concerns peer res = false)
    (h : History) : SameAccess peer res (rec :: h) h := by
  obtain ⟨env, c, answer⟩ := rec
  have heffect : Record.effect ⟨env, c, answer⟩ = c.effect env ∨
      Record.effect ⟨env, c, answer⟩ = .nothing := ite_eq_or_eq ..
  refine ⟨funext fun r => ?_, fun r => granted_of_spares _ ?_ h r, fun r => ?_⟩
  · rw [eq_iff_iff, ringExists_cons, or_iff_left_iff_imp]
    intro hcreated
    rw [hcreated] at heffect
    cases c with
    | createRing => cases hother
    | _ => obtain heq | heq := heffect <;> cases heq
  · cases c with
    | addRingToResource res' | removeRingFromResource res' => exact of_decide_eq_false hother
    | _ => trivial
  · rw [IrohRings.membership]
    obtain heq | heq := heffect
    · rw [heq]
      cases c with
      | evictExpired => cases hother
      | addPeerToRing r' p | removePeerFromRing r' p =>
          exact if_neg fun hid => of_decide_eq_false hother hid.2
      | _ => rfl
    · rw [heq]

end SameAccess

/-! ### Runs that only differ elsewhere -/

section Runs

variable {σ : Type} [Backend σ] {peer : EndpointId} {res : Bytes}

theorem Answer.isOk_eq (a : Answer) : a.isOk = a.fault.isNone := by
  cases a with
  | unit out | members out | rings out | resourceRings out | granted out | evicted out =>
      cases out <;> rfl

/-- Calls on states whose histories show the same rings do the same. -/
theorem effect_eq_of_errorsExact {h h' : History} {s s' : σ} {env : Env} {c : Call}
    (hrings : RingExists h = RingExists h') (hs : ErrorsExact (RingExists h) env s c)
    (hs' : ErrorsExact (RingExists h') env s' c) :
    Record.effect ⟨env, c, (Registry.perform env s c).1⟩ =
      Record.effect ⟨env, c, (Registry.perform env s' c).1⟩ := by
  unfold Record.effect
  dsimp only
  rw [Answer.isOk_eq, Answer.isOk_eq, hs.fault, hs'.fault, hrings]

/-- Every run, and the run of what has to do with the access, show the same about it. -/
theorem sameAccess_filter (hexact : ∀ events env c, ErrorsExact
      (RingExists (Backend.run σ events).1) env (Backend.run σ events).2 c) (events : List Event) :
    SameAccess peer res (Backend.run σ events).1
      (Backend.run σ (events.filter (·.Concerns peer res))).1 := by
  have hmore : ∀ es e, Backend.record (Backend.run σ es) e = Backend.run σ (es ++ [e]) :=
    fun es e => by rw [Backend.run, Backend.run, List.foldl_append]; rfl
  refine (related_filter (fun d d' : History × σ => (∃ es, d = Backend.run σ es) ∧
    (∃ es, d' = Backend.run σ es) ∧ SameAccess peer res d.1 d'.1) ?_ ?_ events
    ⟨⟨[], rfl⟩, ⟨[], rfl⟩, .refl _⟩).2.2
  · intro d d' e _ hrel
    rcases hrel with ⟨⟨es, rfl⟩, ⟨es', rfl⟩, hsame⟩
    refine ⟨⟨_, hmore es e⟩, ⟨_, hmore es' e⟩, ?_⟩
    cases e with
    | reopen => exact hsame
    | call env c =>
        exact hsame.cons (effect_eq_of_errorsExact hsame.rings (hexact es env c) (hexact es' env c))
  · intro d d' e hother hrel
    rcases hrel with ⟨⟨es, rfl⟩, hd', hsame⟩
    refine ⟨⟨_, hmore es e⟩, hd', ?_⟩
    cases e with
    | reopen => exact hsame
    | call env c => exact (SameAccess.of_unconcerned ⟨env, c, _⟩ hother _).trans hsame

/-- Two runs that agree in what has to do with the access allow the same. -/
theorem allowed_iff_of_filter (hexact : ∀ events env c, ErrorsExact
      (RingExists (Backend.run σ events).1) env (Backend.run σ events).2 c)
    {events events' : List Event}
    (hagree : events.filter (·.Concerns peer res) = events'.filter (·.Concerns peer res))
    (q : Permission) (now : SystemTime) :
    Allowed (Backend.run σ events).1 peer res q now ↔
      Allowed (Backend.run σ events').1 peer res q now := by
  have hsame : SameAccess peer res _ _ := sameAccess_filter hexact events
  rw [hagree] at hsame
  exact (hsame.allowed_iff q now).trans ((sameAccess_filter hexact events').allowed_iff q now).symm

end Runs

omit [EndpointKeys] in
/-- Answers that say yes alike are alike, if they are answers at all. -/
theorem Outcome.granted_ext {out out' : Outcome Bool} (hout : Outcome.fault out = none)
    (hout' : Outcome.fault out' = none) (h : out = .ok true ↔ out' = .ok true) : out = out' := by
  cases out with
  | error e => cases hout
  | ok b =>
      cases out' with
      | error e => cases hout'
      | ok b' =>
          simp only [Except.ok.injEq, ← Bool.eq_iff_iff] at h
          rw [h]

/-- **Access is confined**: whatever two runs differ in, if they agree in the calls that
are about the peer or the resource, or about the rings there are, they answer alike
whether the peer has a permission on the resource. -/
theorem access_is_confined (peer : EndpointId) (res : Bytes) {events events' : List Event}
    (hagree : events.filter (·.Concerns peer res) = events'.filter (·.Concerns peer res)) :
    (∀ env q, Registry.hasPermission env (Backend.run Inner events).2 peer res q =
      Registry.hasPermission env (Backend.run Inner events').2 peer res q) ∧
    ((∀ e ∈ events, e.AfterEpoch ∧ e.ShortId) → (∀ e ∈ events', e.AfterEpoch ∧ e.ShortId) →
      ∀ env q, unixEpoch ≤ env.now →
        Registry.hasPermission env (Backend.run RedbRegistry events).2 peer res q =
          Registry.hasPermission env (Backend.run RedbRegistry events').2 peer res q) := by
  constructor
  · intro env q
    have hfault : ∀ es, Outcome.fault
        (Registry.hasPermission env (Backend.run Inner es).2 peer res q) = none := fun es =>
      ((errors_are_exact es).1.2 env (.hasPermission peer res q)).fault
    refine Outcome.granted_ext (hfault _) (hfault _) ?_
    rw [(hasPermission_eq_history events).1, (hasPermission_eq_history events').1]
    exact allowed_iff_of_filter (fun es => (errors_are_exact es).1.2) hagree q env.now
  · intro hevents hevents' env q hnow
    have hfault : ∀ es, Outcome.fault
        (Registry.hasPermission env (Backend.run RedbRegistry es).2 peer res q) = none := fun es =>
      ((errors_are_exact es).2.2 env (.hasPermission peer res q)).fault
    refine Outcome.granted_ext (hfault _) (hfault _) ?_
    rw [(hasPermission_eq_history events).2 hevents env peer res q hnow,
      (hasPermission_eq_history events').2 hevents' env peer res q hnow]
    exact allowed_iff_of_filter (fun es => (errors_are_exact es).2.2) hagree q env.now

/-- A member that may write to a resource, with nothing else going on. -/
def quietRun (peer : EndpointId) : List Event :=
  [.call Env.atEpoch (.createRing "team"),
    .call Env.atEpoch (.addRingToResource [0x61] "team" [.write]),
    .call Env.atEpoch (.addPeerToRing "team" peer none none)]

/-- The same, while another resource is associated and given up again. -/
def busyRun (peer : EndpointId) : List Event :=
  [.call Env.atEpoch (.createRing "team"),
    .call Env.atEpoch (.addRingToResource [0x62] "team" [.read, .delete]),
    .call Env.atEpoch .listRings,
    .call Env.atEpoch (.addRingToResource [0x61] "team" [.write]),
    .call Env.atEpoch (.addPeerToRing "team" peer none none),
    .call Env.atEpoch (.hasPermission peer [0x62] .delete),
    .call Env.atEpoch (.removeRingFromResource [0x62])]

set_option maxRecDepth 10000 in
omit [EndpointKeys] in
theorem access_is_confined_sample :
    letI := EndpointKeys.basePoint
    Registry.hasPermission Env.atEpoch (Backend.run RedbRegistry (quietRun EndpointId.basePoint)).2
        EndpointId.basePoint [0x61] .write = .ok true ∧
      Registry.hasPermission Env.atEpoch
        (Backend.run RedbRegistry (busyRun EndpointId.basePoint)).2
        EndpointId.basePoint [0x61] .write = .ok true := by
  let inst := EndpointKeys.basePoint
  have hsame := (access_is_confined EndpointId.basePoint [0x61]
    (show (quietRun EndpointId.basePoint).filter _ = (busyRun EndpointId.basePoint).filter _ from
      by rfl)).2
    (by simp [quietRun, Event.AfterEpoch, Event.ShortId, Call.ShortId, Env.atEpoch])
    (by simp [busyRun, Event.AfterEpoch, Event.ShortId, Call.ShortId, Env.atEpoch])
    Env.atEpoch .write le_rfl
  have hwrite : Registry.hasPermission Env.atEpoch
      (Backend.run RedbRegistry (quietRun EndpointId.basePoint)).2
      EndpointId.basePoint [0x61] .write = .ok true := by decide +kernel
  exact ⟨hwrite, hsame.symm.trans hwrite⟩

end IrohRings
