import IrohRings.Backends.Redb.Eviction

/-!
# IrohRings.Backends.Redb.Simulation

The redb backend simulates the in-memory one, call by call (`Rep.step`):
whatever does not read permission rows answers the same, and the tables keep
holding the maps.

The simulation has two readings, by the way the clamped expiries are dealt with
(`Comparable`). From the epoch on, redb follows the in-memory registry that
takes the same calls. At any clock whatever, it follows the one that takes the
calls with their expiries clamped (`Call.clamp`): that registry is the *shadow*
of the database (`Shadows`), and everything redb does is read off it.
-/

namespace IrohRings

open Foundation

/-- Both calls failed with the same error, or both returned, related values. -/
inductive Outcome.Rel {α : Type} (R : α → α → Prop) : Outcome α → Outcome α → Prop
  | ok {a a' : α} (h : R a a') : Rel R (.ok a) (.ok a')
  | error (e : Fault) : Rel R (.error e) (.error e)

/-- Related outcomes are the same success. -/
theorem Outcome.Rel.isOk_eq {α : Type} {R : α → α → Prop} {out out' : Outcome α}
    (h : Outcome.Rel R out out') : out.isOk = out'.isOk := by
  cases h with
  | ok h => rfl
  | error e => rfl

/-! ### Transactions and permission rows -/

/-- A write transaction that leaves the permission rows alone does so also when
it aborts. -/
theorem RedbRegistry.commit_perms {α : Type} (db : RedbRegistry)
    {x : Outcome (α × RedbRegistry)}
    (h : ∀ a db', x = .ok (a, db') → db'.resourceRingPerms = db.resourceRingPerms) :
    (db.commit x).2.resourceRingPerms = db.resourceRingPerms := by
  cases x with
  | error e => rfl
  | ok y => exact h y.1 y.2 rfl

@[simp] theorem RedbRegistry.clear_perms (db : RedbRegistry) (key : Bytes) :
    (db.clear key).resourceRingPerms = db.resourceRingPerms := rfl

@[simp] theorem RedbRegistry.annotate_perms (db : RedbRegistry) (key : Bytes)
    (label : Option String) (expiresAt : Option SystemTime) :
    (db.annotate key label expiresAt).resourceRingPerms = db.resourceRingPerms := by
  cases label <;> cases expiresAt <;> rfl

theorem RedbRegistry.createRing_perms (db : RedbRegistry) (r : String) :
    (db.createRing r).2.resourceRingPerms = db.resourceRingPerms := by
  unfold createRing
  split
  · rfl
  · split
    · rfl
    · refine db.commit_perms fun a db' heq => ?_
      split at heq
      · cases heq
      · cases heq
        rfl

section Keys

variable [EndpointKeys]

theorem RedbRegistry.addPeerToRing_perms (env : Env) (db : RedbRegistry) (r : String)
    (p : EndpointId) (label : Option String) (expiresAt : Option SystemTime) :
    (db.addPeerToRing env r p label expiresAt).2.resourceRingPerms = db.resourceRingPerms := by
  unfold addPeerToRing
  refine db.commit_perms fun a db' heq => ?_
  cases hms : db.readMembers r with
  | error e => simp [hms, bind, Except.bind] at heq
  | ok ms =>
      simp only [hms, bind, Except.bind] at heq
      -- whichever branch is taken, only rings, labels and expiries are written
      by_cases hp : p.asBytes ∈ ms
      · cases hexp : isExpired db.expiries r p env.now with
        | error e => simp [hp, hexp] at heq
        | ok expired =>
            cases expired <;>
              simp only [hp, hexp, not_true_eq_false, if_false, if_true, Bool.false_eq_true,
                pure, Except.pure, Except.ok.injEq, Prod.mk.injEq] at heq <;>
              obtain ⟨-, rfl⟩ := heq <;> simp
      · simp only [hp, not_false_eq_true, if_true, pure, Except.pure, Except.ok.injEq,
          Prod.mk.injEq] at heq
        obtain ⟨-, rfl⟩ := heq
        simp

theorem RedbRegistry.removePeerFromRing_perms (db : RedbRegistry) (r : String)
    (p : EndpointId) :
    (db.removePeerFromRing r p).2.resourceRingPerms = db.resourceRingPerms := by
  unfold removePeerFromRing
  refine db.commit_perms fun a db' heq => ?_
  cases hms : db.readMembers r with
  | error e => simp [hms, bind, Except.bind] at heq
  | ok ms =>
      simp only [hms, bind, Except.bind, pure, Except.pure, Except.ok.injEq,
        Prod.mk.injEq] at heq
      obtain ⟨-, rfl⟩ := heq
      rfl

end Keys

/-! ### Opening -/

theorem rep_fresh : Rep Inner.new (RedbRegistry.openDatabase Database.empty) :=
  ⟨Table.Image.empty.insert Function.injective_id openRingName [], Table.Image.empty,
    Table.Image.empty, Table.Image.empty, rfl⟩

/-- **Opening a database at the current version changes nothing.** -/
theorem Rep.reopen {inner : Inner} {db : RedbRegistry} (h : Rep inner db)
    (hopen : openRingName ∈ inner.rings) : RedbRegistry.openDatabase db.close = db := by
  obtain ⟨ms, hms⟩ := Table.mem_iff.mp hopen
  have hring : db.rings[openRingName]?.isNone = false := by
    rw [h.get_ring, hms]
    rfl
  have hboot : db.close.bootstrap = db.close := by
    simp [Database.bootstrap, RedbRegistry.close, openTable, hring]
  have hmigrate : db.close.migrate = db.close := by
    rw [Database.migrate, h.version]
    rfl
  rw [RedbRegistry.openDatabase, hboot, hmigrate]
  rfl

variable [EndpointKeys]

/-! ### Answers that agree -/

/-- Two answers agree: the same error or the same value; rings and evicted
memberships in any order, permissions of a resource's rings as sets. -/
inductive Answer.Agree : Answer → Answer → Prop
  | unit {out out' : Outcome Unit} (h : out = out') : Agree (.unit out) (.unit out')
  | members {out out' : Outcome (List RingMember)} (h : out = out') :
      Agree (.members out) (.members out')
  | rings {out out' : Outcome (List Ring)} (h : Outcome.Rel List.Perm out out') :
      Agree (.rings out) (.rings out')
  | resourceRings {out out' : Outcome (List (Ring × List Permission))}
      (h : Outcome.Rel
        (List.Forall₂ fun e e' => e.1 = e'.1 ∧ ∀ q, q ∈ e.2 ↔ q ∈ e'.2) out out') :
      Agree (.resourceRings out) (.resourceRings out')
  | granted {out out' : Outcome Bool} (h : out = out') : Agree (.granted out) (.granted out')
  | evicted {out out' : Outcome (List EvictedMembership)}
      (h : Outcome.Rel List.Perm out out') : Agree (.evicted out) (.evicted out')

/-- The calls whose answer depends on permission rows. -/
def Call.readsPermissions : Call → Bool
  | .listResourceRings _ => true
  | .hasPermission _ _ _ => true
  | _ => false

/-- Answers that agree report the same success. -/
theorem Answer.Agree.isOk_eq {a a' : Answer} (h : a.Agree a') : a.isOk = a'.isOk := by
  cases h with
  | unit h | members h | granted h => rw [h]
  | rings h | resourceRings h | evicted h => exact h.isOk_eq

/-- Answers that agree report the same effect. -/
theorem Record.effect_congr {env : Env} {c : Call} {a a' : Answer}
    (h : c.readsPermissions = false → a.Agree a') :
    Record.effect ⟨env, c, a⟩ = Record.effect ⟨env, c, a'⟩ := by
  cases hc : c.readsPermissions with
  | false => simp only [Record.effect, (h hc).isOk_eq]
  | true =>
      have hnone : c.effect env = .nothing := by
        cases c <;> first | rfl | cases hc
      rw [Record.effect_eq_nothing hnone, Record.effect_eq_nothing hnone]

/-- The effect on the permission rows, given the rings each resource has. -/
def Effect.onRows (e : Effect) (ringNames : Bytes → List String) (rows : Table Bytes UInt8) :
    Table Bytes UInt8 :=
  match e with
  | .associated res r permissions => rows.insert (permKey res r) (permsToByte permissions)
  | .dissociated res => (ringNames res).foldl (fun rows r => rows.erase (permKey res r)) rows
  | _ => rows

/-- Only the two calls about associations touch the permission rows. -/
theorem Record.onRows_eq {env : Env} (c : Call) {a : Answer} {ringNames : Bytes → List String}
    {rows : Table Bytes UInt8} (hadd : ∀ res r ps, c ≠ .addRingToResource res r ps)
    (hremove : ∀ res, c ≠ .removeRingFromResource res) :
    (Record.effect ⟨env, c, a⟩).onRows ringNames rows = rows := by
  unfold Record.effect
  split
  · cases c with
    | addRingToResource res r ps => exact absurd rfl (hadd res r ps)
    | removeRingFromResource res => exact absurd rfl (hremove res)
    | _ => rfl
  · rfl

/-! ### One call -/

/-- Every instant the call compares expiries with is one that clamping cannot
be told at. -/
structure TimeOk (inner : Inner) (env : Env) (c : Call) : Prop where
  clock : Comparable inner env.now
  evict : ∀ n, c = .evictExpired n → Comparable inner n

/-- One call, on a database and on the maps it represents. -/
structure SimStep (inner : Inner) (db : RedbRegistry) (env : Env) (c : Call) : Prop where
  answer : c.readsPermissions = false →
    (Registry.perform env inner c).1.Agree (Registry.perform env db c).1
  rep : Rep (Registry.perform env inner c).2 (Registry.perform env db c).2
  rows : (Registry.perform env db c).2.resourceRingPerms =
    (Record.effect ⟨env, c, (Registry.perform env db c).1⟩).onRows inner.ringNames
      db.resourceRingPerms

/-- **The simulation, call by call.** -/
theorem Rep.step {inner : Inner} {db : RedbRegistry} (h : Rep inner db)
    (hwf : inner.WellFormed) {env : Env} {c : Call} (ht : TimeOk inner env c) :
    SimStep inner db env c := by
  cases c with
  | createRing r =>
      obtain ⟨hans, hrep⟩ := h.createRing r
      refine ⟨fun _ => .unit hans.symm, hrep, ?_⟩
      rw [Record.onRows_eq (.createRing r) nofun nofun]
      exact db.createRing_perms r
  | addPeerToRing r p label expiresAt =>
      obtain ⟨hans, hrep⟩ := h.addPeerToRing ht.clock r p label expiresAt
      refine ⟨fun _ => .unit hans.symm, hrep, ?_⟩
      rw [Record.onRows_eq (.addPeerToRing r p label expiresAt) nofun nofun]
      exact db.addPeerToRing_perms env r p label expiresAt
  | removePeerFromRing r p =>
      obtain ⟨hans, hrep⟩ := h.removePeerFromRing r p
      refine ⟨fun _ => .unit hans.symm, hrep, ?_⟩
      rw [Record.onRows_eq (.removePeerFromRing r p) nofun nofun]
      exact db.removePeerFromRing_perms r p
  | listRingPeers r =>
      exact ⟨fun _ => .members (h.listRingPeers hwf ht.clock r).symm, h,
        (Record.onRows_eq (.listRingPeers r) nofun nofun).symm⟩
  | listRings =>
      obtain ⟨listed, hok, hnodup, hmem⟩ := hwf.listRings_spec env
      -- the orders differ: hash order there, key order here
      obtain ⟨listed', hok', hnodup', hmem'⟩ := h.listRings hwf env
      refine ⟨fun _ => ?_, h, (Record.onRows_eq .listRings nofun nofun).symm⟩
      show (Answer.rings (inner.listRings env)).Agree (.rings (db.listRings env))
      rw [hok, hok']
      refine .rings (.ok ((List.perm_ext_iff_of_nodup hnodup hnodup').mpr fun ring => ?_))
      rw [hmem, hmem']
  | removeRingFromResource res =>
      obtain ⟨hans, hrep⟩ := h.removeRingFromResource res
      refine ⟨fun _ => .unit hans.symm, hrep, ?_⟩
      · show (db.ringNames res).foldl (fun perms name => perms.erase (permKey res name))
          db.resourceRingPerms = _
        rw [h.ringNames hwf]
        rfl
  | listResourceRings res =>
      exact ⟨nofun, h, (Record.onRows_eq (.listResourceRings res) nofun nofun).symm⟩
  | addRingToResource res r ps =>
      obtain ⟨hans, hrep⟩ := h.addRingToResource hwf res r ps
      refine ⟨fun _ => .unit hans.symm, hrep, ?_⟩
      · show (db.addRingToResource res r ps).2.resourceRingPerms =
          (Record.effect ⟨env, _, .unit (db.addRingToResource res r ps).1⟩).onRows _ _
        unfold RedbRegistry.addRingToResource
        cases validateRingPermissions r ps with
        | error e => rfl
        | ok _ => cases db.rings[r]? <;> rfl
  | hasPermission p res q =>
      exact ⟨nofun, h, (Record.onRows_eq (.hasPermission p res q) nofun nofun).symm⟩
  | evictExpired n =>
      obtain ⟨evicted, evicted', heq, hok, hperm, hrep, hrows⟩ :=
        h.evictExpired hwf env (ht.evict n rfl)
      refine ⟨fun _ => ?_, ?_, ?_⟩
      · show (Answer.evicted (inner.evictExpired env n).1).Agree
          (.evicted (db.evictExpired env n).1)
        rw [heq, hok]
        exact .evicted (.ok hperm)
      · show Rep (inner.evictExpired env n).2 (db.evictExpired env n).2
        rw [heq]
        exact hrep
      · rw [Record.onRows_eq (.evictExpired n) nofun nofun]
        exact hrows

end IrohRings
