import IrohRings.Backends.Errors
import IrohRings.Foundation.Transactions

/-!
# IrohRings.Backends.Concurrency

A registry is shared: the gate asks it for every request while its owner changes it, from
any number of threads. Both backends run every call in one piece. `InMemoryRegistry` holds
its `RwLock` from the first look at its maps to the last, `RedbRegistry` makes each call
one transaction, and both read the clock before that. So the calls of a backend under any
interleaving do what they do one after the other, in an order that real time respects
(`registry_linearizes`), and access is decided by what was called until some moment
between the question and its answer (`access_decided_between`).

A crash ends an in-memory registry; a redb registry is opened again on what was committed.
The lock is assumed not to be poisoned, and the database not to fail.
-/

namespace IrohRings

open Foundation

variable [EndpointKeys]

/-! ### Calls as transactions -/

/-- What a call does to a backend. What its arguments already refute does not get that
far. -/
def Call.access : Call → Access
  | .createRing ringName =>
    match Ring.new ringName with
    | .error _ => .free
    | .ok ring => if ring.isOpen then .free else .write
  | .addRingToResource _ ringName permissions =>
    match validateRingPermissions ringName permissions with
    | .error _ => .free
    | .ok () => .write
  | .addPeerToRing _ _ _ _ | .removePeerFromRing _ _ | .removeRingFromResource _
  | .evictExpired _ => .write
  | .listRingPeers _ | .listRings | .listResourceRings _ | .hasPermission _ _ _ => .read

/-- Why a call is not a write. -/
inductive Call.Harmless : Call → Prop
  | badName {r : String} {e : Error} (hnew : Ring.new r = .error e) : Harmless (.createRing r)
  | openName {r : String} {ring : Ring} (hnew : Ring.new r = .ok ring)
      (hopen : ring.isOpen = true) : Harmless (.createRing r)
  | badPermissions (res : Bytes) {r : String} {ps : List Permission} {e : Error}
      (hvalid : validateRingPermissions r ps = .error e) : Harmless (.addRingToResource res r ps)
  | reads {c : Call} (hread : c.access = .read) : Harmless c

theorem Call.harmless_of_not_write {c : Call} (h : c.access ≠ .write) : c.Harmless := by
  cases c with
  | createRing r =>
      unfold access at h
      dsimp only at h
      cases hnew : Ring.new r with
      | error e => exact .badName hnew
      | ok ring =>
          rw [hnew] at h
          cases hopen : ring.isOpen with
          | true => exact .openName hnew hopen
          | false => simp [hopen] at h
  | addRingToResource res r ps =>
      unfold access at h
      dsimp only at h
      cases hvalid : validateRingPermissions r ps with
      | error e => exact .badPermissions res hvalid
      | ok _ =>
          rw [hvalid] at h
          exact absurd rfl h
  | addPeerToRing | removePeerFromRing | removeRingFromResource | evictExpired =>
      exact absurd rfl h
  | listRingPeers | listRings | listResourceRings | hasPermission => exact .reads rfl

/-- A call that reads keeps a registry. -/
theorem perform_of_read {σ : Type} [Registry σ] (env : Env) (s : σ) {c : Call}
    (h : c.access = .read) : (Registry.perform env s c).2 = s := by
  cases c with
  | createRing | addRingToResource =>
      unfold Call.access at h
      dsimp only at h
      split at h
      · cases h
      · first | cases h | split at h <;> cases h
  | addPeerToRing | removePeerFromRing | removeRingFromResource | evictExpired => cases h
  | listRingPeers | listRings | listResourceRings | hasPermission => rfl

theorem Inner.perform_of_not_write (env : Env) (inner : Inner) (c : Call)
    (h : c.access ≠ .write) : (Registry.perform env inner c).2 = inner := by
  cases Call.harmless_of_not_write h with
  | @badName r e hnew =>
      show (inner.createRing r).2 = inner
      rw [Inner.createRing, hnew]
  | @openName r ring hnew hopen =>
      show (inner.createRing r).2 = inner
      simp only [Inner.createRing, hnew, hopen, if_true]
  | @badPermissions res r ps e hvalid =>
      show (inner.addRingToResource res r ps).2 = inner
      rw [Inner.addRingToResource, hvalid]
  | reads hread => exact perform_of_read env inner hread

theorem RedbRegistry.perform_of_not_write (env : Env) (db : RedbRegistry) (c : Call)
    (h : c.access ≠ .write) : (Registry.perform env db c).2 = db := by
  cases Call.harmless_of_not_write h with
  | @badName r e hnew =>
      show (db.createRing r).2 = db
      rw [RedbRegistry.createRing, hnew]
  | @openName r ring hnew hopen =>
      show (db.createRing r).2 = db
      simp only [RedbRegistry.createRing, hnew, hopen, if_true]
  | @badPermissions res r ps e hvalid =>
      show (db.addRingToResource res r ps).2 = db
      rw [RedbRegistry.addRingToResource, hvalid]
  | reads hread => exact perform_of_read env db hread

/-- `InMemoryRegistry`: what a call did to the maps stays, whatever it answers. -/
def Inner.service : Service Env Inner Call Answer where
  perform := Registry.perform
  access := Call.access
  aborts _ := false
  recover _ := Inner.new
  reads_keep := Inner.perform_of_not_write
  aborts_keep _ _ _ h := nomatch h

/-- `RedbRegistry`: a call that fails does not commit. -/
def RedbRegistry.service : Service Env RedbRegistry Call Answer where
  perform := Registry.perform
  access := Call.access
  aborts answer := answer.fault.isSome
  recover db := RedbRegistry.openDatabase db.close
  reads_keep := RedbRegistry.perform_of_not_write
  aborts_keep _ _ _ h := RedbRegistry.perform_of_fault (Option.isSome_iff_ne_none.mp h)

/-! ### The run that a log tells of -/

/-- What has been logged of a registry, latest first. -/
abbrev RegistryLog : Type _ := List (Entry Env Call Answer)

def RegistryLog.event : Entry Env Call Answer → Event
  | .op _ env c _ => .call env c
  | .crash => .reopen

def RegistryLog.record? : Entry Env Call Answer → Option Record
  | .op _ env c answer => some ⟨env, c, answer⟩
  | .crash => none

/-- The events of a run that goes as the log says, first to last. -/
def RegistryLog.events (log : RegistryLog) : List Event := (log.map RegistryLog.event).reverse

/-- The calls in the log, and their answers. -/
def RegistryLog.history (log : RegistryLog) : History := log.filterMap RegistryLog.record?

/-- What was logged since the last crash. -/
def RegistryLog.session (log : RegistryLog) : RegistryLog :=
  log.takeWhile fun e => (RegistryLog.record? e).isSome

namespace RegistryLog

theorem run_events_cons {σ : Type} [Backend σ] (e : Entry Env Call Answer) (log : RegistryLog) :
    Backend.run σ (events (e :: log)) = Backend.record (Backend.run σ (events log)) (event e) := by
  rw [events, List.map_cons, List.reverse_cons, Backend.run, List.foldl_append]
  rfl

/-- What is logged of redb is a run of it. -/
theorem redb_run {log : RegistryLog}
    (h : RedbRegistry.service.Answered (RedbRegistry.openDatabase Database.empty) log) :
    Backend.run RedbRegistry (events log) =
      (history log,
        RedbRegistry.service.replay (RedbRegistry.openDatabase Database.empty) log) := by
  induction log with
  | nil => rfl
  | cons e log ih =>
      cases e with
      | op i env c answer =>
          obtain ⟨hanswer, h⟩ := h
          rw [run_events_cons, ih h, ← hanswer]
          rfl
      | crash =>
          rw [run_events_cons, ih h]
          rfl

/-- What is logged of an in-memory registry since its start is a run of it. -/
theorem memory_run {log : RegistryLog} (h : Inner.service.Answered Inner.new log) :
    Backend.run Inner (events (session log)) =
      (history (session log), Inner.service.replay Inner.new log) := by
  induction log with
  | nil => rfl
  | cons e log ih =>
      cases e with
      | op i env c answer =>
          obtain ⟨hanswer, h⟩ := h
          have hsession : session (.op i env c answer :: log) =
              .op i env c answer :: session log := List.takeWhile_cons_of_pos rfl
          rw [hsession, run_events_cons, ih h, ← hanswer]
          rfl
      | crash => rfl

end RegistryLog

/-! ### Any interleaving is one run -/

/-- The answer took effect once, between its call and its return: `before` is what had
been logged until then, and goes on from what was logged when the call was made. -/
def TookEffect {σ : Type} (svc : Service Env σ Call Answer) (lock : Locking)
    (s₀ : Shared Env σ Call Answer) (as : List (Action Env Call)) (i : Nat) (env : Env) (c : Call)
    (answer : Answer) (before : RegistryLog) : Prop :=
  ∃ earlier later after between, as = earlier ++ .user i (.call c) :: later ∧
    .user i (.clock env) ∈ later ∧
    (svc.run lock s₀ as).log = after ++ .op i env c answer :: before ∧
    before = between ++ (svc.run lock s₀ earlier).log ∧
    ∀ e ∈ after ++ between, e.isBy i = false

/-- The registry is what a run of it leaves behind that makes the calls that are `kept` in
their order, with the answers it gives there; and whoever has an answer was logged, once,
since the call, with a clock that was read since. -/
structure Linearizes {σ : Type} [Backend σ] (svc : Service Env σ Call Answer) (lock : Locking)
    (kept : RegistryLog → RegistryLog) (s₀ : Shared Env σ Call Answer)
    (as : List (Action Env Call)) : Prop where
  run : Backend.run σ (RegistryLog.events (kept (svc.run lock s₀ as).log)) =
    (RegistryLog.history (kept (svc.run lock s₀ as).log), (svc.run lock s₀ as).committed)
  answers : ∀ i c answer, (svc.run lock s₀ as).users[i]? = some (.done c answer) →
    ∃ env before, TookEffect svc lock s₀ as i env c answer before

/-- `n` users of a fresh in-memory registry. -/
def Inner.shared (n : Nat) : Shared Env Inner Call Answer := Service.start Inner.new n

/-- `n` users of a fresh redb registry. -/
def RedbRegistry.shared (n : Nat) : Shared Env RedbRegistry Call Answer :=
  Service.start (RedbRegistry.openDatabase Database.empty) n

theorem exists_tookEffect {σ : Type} {svc : Service Env σ Call Answer} {lock : Locking}
    {init : σ} {n : Nat} {as : List (Action Env Call)} {i : Nat} {c : Call} {answer : Answer}
    (h : (svc.run lock (Service.start init n) as).users[i]? = some (.done c answer)) :
    ∃ env before, TookEffect svc lock (Service.start init n) as i env c answer before := by
  obtain ⟨env, hsince⟩ := Service.tracked_run init n as i h
  obtain ⟨earlier, later, after, between, has, hclock, hlog, hothers⟩ := hsince.split
  exact ⟨env, _, earlier, later, after, between, has, hclock, hlog, rfl, hothers⟩

/-- **Calls from many threads do what they do one after the other**, however the calls of
any number of users interleave, and wherever it all crashes. A redb registry keeps all
that was logged; an in-memory one starts over after a crash. -/
theorem registry_linearizes (n : Nat) (as : List (Action Env Call)) :
    Linearizes Inner.service .shared RegistryLog.session (Inner.shared n) as ∧
    Linearizes RedbRegistry.service .snapshots id (RedbRegistry.shared n) as := by
  constructor
  · have h := Inner.service.consistent_run .shared Inner.new n as
    exact
      { run := (RegistryLog.memory_run h.answered).trans (congrArg _ h.committed.symm)
        answers := fun i c answer hdone => exists_tookEffect hdone }
  · have h := RedbRegistry.service.consistent_run .snapshots
      (RedbRegistry.openDatabase Database.empty) n as
    exact
      { run := (RegistryLog.redb_run h.answered).trans (congrArg _ h.committed.symm)
        answers := fun i c answer hdone => exists_tookEffect hdone }

/-! ### Access -/

/-- The clock is read at or after the epoch, and an association is only made for a
resource id a `u16` can count. -/
def InRange : Action Env Call → Prop
  | .user _ (.clock env) => unixEpoch ≤ env.now
  | .user _ (.call c) => c.ShortId
  | _ => True

section TookEffect

variable {σ : Type} {svc : Service Env σ Call Answer} {lock : Locking} {init : σ} {n : Nat}
  {as : List (Action Env Call)} {i : Nat} {env : Env} {c : Call} {answer : Answer}
  {before : RegistryLog}

/-- What took effect is the answer of the registry that the log before leads to. -/
theorem TookEffect.answered
    (h : TookEffect svc lock (Service.start init n) as i env c answer before) :
    svc.Answered init before ∧ (svc.perform env (svc.replay init before) c).1 = answer := by
  obtain ⟨_, _, after, _, -, -, hlog, -, -⟩ := h
  have hanswered := (svc.consistent_run lock init n as).answered
  rw [hlog] at hanswered
  exact ⟨hanswered.suffix.2, hanswered.suffix.1⟩

/-- What happened in range is logged in range. -/
theorem TookEffect.inRange
    (h : TookEffect svc lock (Service.start init n) as i env c answer before)
    (has : ∀ a ∈ as, InRange a) :
    unixEpoch ≤ env.now ∧ ∀ e ∈ RegistryLog.events before, e.AfterEpoch ∧ e.ShortId := by
  obtain ⟨earlier, later, after, _, hcall, hclock, hlog, -, -⟩ := h
  constructor
  · refine has (.user i (.clock env)) ?_
    rw [hcall]
    exact List.mem_append_right _ (List.mem_cons_of_mem _ hclock)
  · intro e he
    obtain ⟨entry, hentry, rfl⟩ := List.mem_map.mp (List.mem_reverse.mp he)
    cases entry with
    | crash => exact ⟨trivial, trivial⟩
    | op j env' c' answer' =>
        have hlogged : .op j env' c' answer' ∈ (svc.run lock (Service.start init n) as).log := by
          rw [hlog]
          exact List.mem_append_right _ (List.mem_cons_of_mem _ hentry)
        obtain ⟨hcall', hclock'⟩ := Service.mem_of_logged init n as hlogged
        exact ⟨has _ hclock', has _ hcall'⟩

end TookEffect

/-- **Access is decided between the question and its answer**: whoever asks while others
change the registry is told yes exactly when the calls that had taken effect at some
moment since the question allow it, at a clock that was read since. -/
theorem access_decided_between (n : Nat) (as : List (Action Env Call)) (i : Nat)
    (peer : EndpointId) (res : Bytes) (q : Permission) (out : Outcome Bool) :
    ((Inner.service.run .shared (Inner.shared n) as).users[i]? =
        some (.done (.hasPermission peer res q) (.granted out)) →
      ∃ env before, TookEffect Inner.service .shared (Inner.shared n) as i env
          (.hasPermission peer res q) (.granted out) before ∧
        (out = .ok true ↔
          Allowed (RegistryLog.history (RegistryLog.session before)) peer res q env.now)) ∧
    ((∀ a ∈ as, InRange a) →
      (RedbRegistry.service.run .snapshots (RedbRegistry.shared n) as).users[i]? =
        some (.done (.hasPermission peer res q) (.granted out)) →
      ∃ env before, TookEffect RedbRegistry.service .snapshots (RedbRegistry.shared n) as i env
          (.hasPermission peer res q) (.granted out) before ∧
        (out = .ok true ↔ Allowed (RegistryLog.history before) peer res q env.now)) := by
  constructor
  · intro hdone
    obtain ⟨env, before, heffect⟩ := exists_tookEffect hdone
    obtain ⟨hanswered, hanswer⟩ := TookEffect.answered heffect
    have hrun := RegistryLog.memory_run hanswered
    refine ⟨env, before, heffect, ?_⟩
    have hallowed := (hasPermission_eq_history
      (RegistryLog.events (RegistryLog.session before))).1 env peer res q
    rw [hrun] at hallowed
    rw [← hallowed, ← Answer.granted.inj hanswer]
  · intro has hdone
    obtain ⟨env, before, heffect⟩ := exists_tookEffect hdone
    obtain ⟨hanswered, hanswer⟩ := TookEffect.answered heffect
    obtain ⟨hnow, hevents⟩ := TookEffect.inRange heffect has
    have hrun := RegistryLog.redb_run hanswered
    refine ⟨env, before, heffect, ?_⟩
    have hallowed := (hasPermission_eq_history (RegistryLog.events before)).2 hevents env peer res
      q hnow
    rw [hrun] at hallowed
    rw [← hallowed, ← Answer.granted.inj hanswer]

/-- A user makes a call, and nothing comes in between. -/
def callBy (i : Nat) (c : Call) : List (Action Env Call) :=
  [.user i (.call c), .user i (.clock Env.atEpoch), .user i .start, .user i .finish,
    .user i .respond]

/-- A peer is made a member, and then one user asks for its access while another one
removes it. -/
def sampleActions (peer : EndpointId) : List (Action Env Call) :=
  callBy 1 (.createRing "team") ++ callBy 1 (.addRingToResource [0x61] "team" [.read]) ++
    callBy 1 (.addPeerToRing "team" peer none none) ++
    [.user 0 (.call (.hasPermission peer [0x61] .read)), .user 0 (.clock Env.atEpoch),
      .user 1 (.call (.removePeerFromRing "team" peer)), .user 1 (.clock Env.atEpoch),
      .user 1 .start, .user 0 .start, .user 1 .finish, .user 0 .finish]

/-- The user was told that the peer may read the resource. -/
def toldReadable {σ : Type} (peer : EndpointId) (res : Bytes) : Phase Env σ Call Answer → Bool
  | .done (.hasPermission peer' res' .read) (.granted (.ok true)) => peer' = peer ∧ res' = res
  | _ => false

theorem eq_done_of_toldReadable {σ : Type} {peer : EndpointId} {res : Bytes}
    {phase : Phase Env σ Call Answer} (h : toldReadable peer res phase = true) :
    phase = .done (.hasPermission peer res .read) (.granted (.ok true)) := by
  unfold toldReadable at h
  split at h
  · obtain ⟨rfl, rfl⟩ := of_decide_eq_true h
    rfl
  · cases h

set_option maxRecDepth 10000 in
omit [EndpointKeys] in
/-- The removal is through first, but the question was asked of the database before. -/
theorem access_decided_between_sample :
    letI := EndpointKeys.basePoint
    ∃ env before, TookEffect RedbRegistry.service .snapshots (RedbRegistry.shared 2)
        (sampleActions EndpointId.basePoint) 0 env
        (.hasPermission EndpointId.basePoint [0x61] .read) (.granted (.ok true)) before ∧
      Allowed (RegistryLog.history before) EndpointId.basePoint [0x61] .read env.now := by
  let inst := EndpointKeys.basePoint
  have htold : ((RedbRegistry.service.run .snapshots (RedbRegistry.shared 2)
      (sampleActions EndpointId.basePoint)).users[0]?).any
        (toldReadable EndpointId.basePoint [0x61]) := by
    decide +kernel
  obtain ⟨phase, hphase, htold⟩ := (Option.any_eq_true _ _).mp htold
  obtain rfl := eq_done_of_toldReadable htold
  obtain ⟨env, before, heffect, hallowed⟩ := (access_decided_between 2
    (sampleActions EndpointId.basePoint) 0 EndpointId.basePoint [0x61] .read (.ok true)).2
    (by simp [sampleActions, callBy, InRange, Call.ShortId, Env.atEpoch]) hphase
  exact ⟨env, before, heffect, hallowed.mp rfl⟩

end IrohRings
