import IrohRings.Foundation.Leases
import IrohRings.Registry

/-!
# IrohRings.History

What a registry is for, read off the calls that were made: who is a member of
which ring, and which ring grants what on which resource. Histories are listed
**latest first**, and only successful calls count.

Two readings are given. The declarative one names the membership a peer
currently has — the list of its `addPeerToRing` calls since it started
(`membership`) — and what is in force of it. The other replays the history on a
ledger of leases (`Memberships`), one effect for each record; it is the one the
backends are proved against. `replay_eq_membership` connects them.
-/

namespace IrohRings

open Foundation

/-! ### Memberships -/

/-- What one `addPeerToRing` call gave for a membership. -/
structure Admission where
  label : Option String
  expiresAt : Option SystemTime

/-- The expiry in force: that of the latest admission that gave one. -/
def inForce (adds : List Admission) : Option SystemTime := adds.findSome? Admission.expiresAt

/-- The label shown: that of the latest admission that gave one. -/
def shownLabel (adds : List Admission) : Option String := adds.findSome? Admission.label

/-- The expiry in force is at or before `now`. -/
def lapsed (adds : List Admission) (now : SystemTime) : Bool := (inForce adds).any (· ≤ now)

variable [EndpointKeys]

/-- What a call does to a registry when it succeeds. -/
inductive Effect
  | created (ringName : String)
  | admitted (ringName : String) (peer : EndpointId) (add : Admission) (now : SystemTime)
  | removed (ringName : String) (peer : EndpointId)
  | evicted (now : SystemTime)
  | associated (resourceId : Bytes) (ringName : String) (permissions : List Permission)
  | dissociated (resourceId : Bytes)
  | nothing

def Call.effect (env : Env) : Call → Effect
  | .createRing r => .created r
  | .addPeerToRing r p label expiresAt => .admitted r p ⟨label, expiresAt⟩ env.now
  | .removePeerFromRing r p => .removed r p
  | .removeRingFromResource res => .dissociated res
  | .addRingToResource res r permissions => .associated res r permissions
  | .evictExpired n => .evicted n
  | .listRingPeers _ | .listRings | .listResourceRings _ | .hasPermission _ _ _ => .nothing

/-- The call returned `Ok`. -/
def Answer.isOk : Answer → Bool
  | .unit out => out.isOk
  | .members out => out.isOk
  | .rings out => out.isOk
  | .resourceRings out => out.isOk
  | .granted out => out.isOk
  | .evicted out => out.isOk

/-- What a recorded call did: nothing, unless it succeeded. -/
def Record.effect (rec : Record) : Effect :=
  if rec.answer.isOk then rec.call.effect rec.env else .nothing

/-- A call that only reads does nothing. -/
theorem Record.effect_eq_nothing {rec : Record} (h : rec.call.effect rec.env = .nothing) :
    rec.effect = .nothing := by
  rw [Record.effect, h, ite_self]

/-- Only a successful `addRingToResource` associates. -/
theorem Record.of_associated {rec : Record} {res : Bytes} {r : String} {ps : List Permission}
    (h : rec.effect = .associated res r ps) :
    rec.answer.isOk = true ∧ rec.call = .addRingToResource res r ps := by
  obtain ⟨env, c, a⟩ := rec
  unfold Record.effect at h
  split at h
  · rename_i hok
    refine ⟨hok, ?_⟩
    cases c <;> cases h
    rfl
  · cases h

/-- The admissions of the membership `peer` currently has in `ringName`. A
membership starts at an admission made when there is none, or at a clock at or
past the expiry in force, which ends the old one; it also ends when the peer is
removed, and when an eviction is at or past the expiry in force. -/
def membership (ringName : String) (peer : EndpointId) : History → Option (List Admission)
  | [] => none
  | rec :: h =>
    let before := membership ringName peer h
    match rec.effect with
    | .admitted r p add now =>
      if r = ringName ∧ p = peer then
        match before with
        | some adds => if lapsed adds now then some [add] else some (add :: adds)
        | none => some [add]
      else before
    | .removed r p => if r = ringName ∧ p = peer then none else before
    | .evicted n => before.filter fun adds => !lapsed adds n
    | _ => before

/-- `peer` has a current membership in `ringName` that no expiry in force ends by
`now`. -/
def IsMember (h : History) (ringName : String) (peer : EndpointId) (now : SystemTime) : Prop :=
  ∃ adds, membership ringName peer h = some adds ∧ lapsed adds now = false

/-! ### Rings and associations -/

/-- The ring exists: it is the open ring, or was created. -/
def RingExists (h : History) (ringName : String) : Prop :=
  ringName = openRingName ∨ ∃ rec ∈ h, rec.effect = .created ringName

/-- The permissions of the latest `addRingToResource` for the pair, unless the
resource's rings were removed since. -/
def granted (resourceId : Bytes) (ringName : String) : History → Option (List Permission)
  | [] => none
  | rec :: h =>
    let before := granted resourceId ringName h
    match rec.effect with
    | .associated res r permissions =>
      if res = resourceId ∧ r = ringName then some permissions else before
    | .dissociated res => if res = resourceId then none else before
    | _ => before

/-- Some ring grants the permission, and it is the open ring or has `peer` as a
member. -/
def Allowed (h : History) (peer : EndpointId) (resourceId : Bytes) (permission : Permission)
    (now : SystemTime) : Prop :=
  ∃ r, (∃ perms, granted resourceId r h = some perms ∧ permission ∈ perms) ∧
    (r = openRingName ∨ IsMember h r peer now)

/-! ### Replaying a history -/

/-- The leases of all `(ring_name, peer_id)` pairs. -/
abbrev Memberships : Type := Ledger (String × PeerBytes) String SystemTime

/-- The effect on the memberships. -/
noncomputable def Effect.onLedger (e : Effect) (s : Memberships) : Memberships :=
  match e with
  | .admitted r p add now => s.renew now (r, p.asBytes) add.label add.expiresAt
  | .removed r p => s.revoke (r, p.asBytes)
  | .evicted n => s.live n
  | _ => s

/-- The effect on the granted permissions. -/
def Effect.onGrants (e : Effect) (grants : Bytes → String → Option (List Permission)) :
    Bytes → String → Option (List Permission) :=
  match e with
  | .associated res r permissions =>
    Function.update grants res (Function.update (grants res) r (some permissions))
  | .dissociated res => Function.update grants res fun _ => none
  | _ => grants

/-- The memberships a history leaves behind. -/
noncomputable def replay : History → Memberships
  | [] => fun _ => none
  | rec :: h => rec.effect.onLedger (replay h)

/-! ### The two readings agree -/

omit [EndpointKeys] in
/-- The lease a list of admissions amounts to. -/
def leaseOf (adds : List Admission) : Lease String SystemTime := ⟨shownLabel adds, inForce adds⟩

omit [EndpointKeys] in
theorem lapsed_iff (adds : List Admission) (now : SystemTime) :
    lapsed adds now = true ↔ (leaseOf adds).Lapsed now := by
  simp [lapsed, leaseOf, Lease.Lapsed, Option.any_eq_true]

omit [EndpointKeys] in
/-- One more admission amends the lease. -/
theorem leaseOf_cons (add : Admission) (adds : List Admission) :
    leaseOf (add :: adds) = (leaseOf adds).amend add.label add.expiresAt := by
  obtain ⟨label, expiresAt⟩ := add
  cases label <;> cases expiresAt <;> simp [leaseOf, Lease.amend, shownLabel, inForce]

omit [EndpointKeys] in
/-- What is live of a membership. -/
theorem live_of_membership {s : Memberships} {id : String × PeerBytes}
    {o : Option (List Admission)} (h : s id = o.map leaseOf) (now : SystemTime) :
    s.live now id = (o.filter fun adds => !lapsed adds now).map leaseOf := by
  refine Option.ext fun l => ?_
  rw [Ledger.live_eq_some, h]
  cases o with
  | none => simp
  | some adds =>
      have hlapse := lapsed_iff adds now
      cases hl : lapsed adds now with
      | true =>
          simp only [Option.map_some, Option.some.injEq, Option.filter_some, hl, Bool.not_true,
            Bool.false_eq_true, if_false, Option.map_none, reduceCtorEq, iff_false, not_and,
            not_not]
          intro heq
          subst heq
          exact hlapse.mp hl
      | false =>
          simp only [Option.map_some, Option.some.injEq, Option.filter_some, hl, Bool.not_false,
            if_true, and_iff_left_iff_imp]
          intro heq hlap
          subst heq
          exact absurd (hlapse.mpr hlap) (by simp [hl])

theorem replay_eq_membership (h : History) (r : String) (p : EndpointId) :
    replay h (r, p.asBytes) = (membership r p h).map leaseOf := by
  have hkey : ∀ (r' : String) (p' : EndpointId),
      (r, p.asBytes) = (r', p'.asBytes) ↔ r' = r ∧ p' = p := by
    intro r' p'
    rw [Prod.mk.injEq]
    exact and_congr eq_comm ⟨fun hp => (EndpointId.ext hp).symm, fun hp => by rw [hp]⟩
  induction h with
  | nil => rfl
  | cons rec h ih =>
      rw [replay, membership]
      cases rec.effect with
      | admitted r' p' add now =>
          show Ledger.renew _ _ _ _ _ _ = _
          by_cases hid : r' = r ∧ p' = p
          · -- renewing starts from what is live of the membership, as the admission does
            rw [← (hkey r' p').mpr hid, Ledger.renew_self, live_of_membership ih]
            simp only [if_pos hid]
            cases membership r p h with
            | none => exact congrArg some (leaseOf_cons add []).symm
            | some adds =>
                dsimp only
                rw [Option.filter_some]
                cases lapsed adds now with
                | true => exact congrArg some (leaseOf_cons add []).symm
                | false => exact congrArg some (leaseOf_cons add adds).symm
          · rw [Ledger.renew_ne (mt (hkey r' p').mp hid), ih]
            simp only [if_neg hid]
      | removed r' p' =>
          show Ledger.revoke _ _ _ = _
          by_cases hid : r' = r ∧ p' = p
          · rw [← (hkey r' p').mpr hid]
            simp only [if_pos hid]
            exact Function.update_self ..
          · simp only [if_neg hid]
            exact (Function.update_of_ne (mt (hkey r' p').mp hid) ..).trans ih
      | evicted n => exact live_of_membership ih n
      | created | associated | dissociated | nothing => exact ih

/-- A member is a pair whose lease is live. -/
theorem isMember_iff {h : History} {r : String} {p : EndpointId} {now : SystemTime} :
    IsMember h r p now ↔ ((replay h).live now (r, p.asBytes)).isSome := by
  rw [live_of_membership (replay_eq_membership h r p), Option.isSome_map, IsMember]
  cases membership r p h with
  | none => simp
  | some adds => cases hl : lapsed adds now <;> simp [hl]

/-- The lease of a member. -/
theorem live_replay_eq_some {h : History} {r : String} {p : EndpointId} {now : SystemTime}
    {l : Lease String SystemTime} :
    (replay h).live now (r, p.asBytes) = some l ↔
      ∃ adds, membership r p h = some adds ∧ lapsed adds now = false ∧ l = leaseOf adds := by
  rw [live_of_membership (replay_eq_membership h r p), Option.map_eq_some_iff]
  refine exists_congr fun adds => ?_
  rw [Option.filter_eq_some_iff, Bool.not_eq_true', and_assoc, eq_comm (a := l)]

omit [EndpointKeys] in
/-- Setting the permissions of one association. -/
theorem update_grants {grants : Bytes → String → Option (List Permission)} {res res' : Bytes}
    {r r' : String} {o : Option (List Permission)} :
    Function.update grants res (Function.update (grants res) r o) res' r' =
      if res' = res ∧ r' = r then o else grants res' r' := by
  by_cases hres : res' = res
  · subst hres
    by_cases hr : r' = r <;> simp [hr]
  · simp [hres]

omit [EndpointKeys] in
/-- Dropping all associations of one resource. -/
theorem update_grants_none {grants : Bytes → String → Option (List Permission)}
    {res res' : Bytes} {r' : String} :
    Function.update grants res (fun _ => none) res' r' =
      if res' = res then none else grants res' r' := by
  by_cases hres : res' = res <;> simp [hres]

theorem granted_cons (rec : Record) (h : History) :
    (fun res r => granted res r (rec :: h)) =
      rec.effect.onGrants fun res r => granted res r h := by
  funext res r
  rw [granted]
  cases rec.effect with
  | associated res' r' permissions =>
      rw [Effect.onGrants, update_grants]
      exact if_congr (and_congr eq_comm eq_comm) rfl rfl
  | dissociated res' =>
      rw [Effect.onGrants, update_grants_none]
      exact if_congr eq_comm rfl rfl
  | created | admitted | removed | evicted | nothing => rfl

/-- Granted permissions come from an `addRingToResource`. -/
theorem exists_of_granted {h : History} {res : Bytes} {r : String} {ps : List Permission}
    (hg : granted res r h = some ps) : ∃ rec ∈ h, rec.call = .addRingToResource res r ps := by
  induction h with
  | nil => cases hg
  | cons rec h ih =>
      have hold : granted res r h = some ps →
          ∃ rec' ∈ rec :: h, rec'.call = .addRingToResource res r ps := by
        intro hg'
        obtain ⟨rec', hmem, hcall⟩ := ih hg'
        exact ⟨rec', List.mem_cons_of_mem _ hmem, hcall⟩
      rw [granted] at hg
      cases he : rec.effect with
      | associated res' r' ps' =>
          simp only [he] at hg
          split at hg
          · rename_i hid
            obtain ⟨rfl, rfl⟩ := hid
            obtain rfl := Option.some.inj hg
            exact ⟨rec, List.mem_cons_self, (Record.of_associated he).2⟩
          · exact hold hg
      | dissociated res' =>
          simp only [he] at hg
          split at hg
          · cases hg
          · exact hold hg
      | created | admitted | removed | evicted | nothing =>
          simp only [he] at hg
          exact hold hg

/-- The call leaves the associations of the resource alone. -/
def Call.Spares (resourceId : Bytes) : Call → Prop
  | .addRingToResource res _ _ | .removeRingFromResource res => res ≠ resourceId
  | _ => True

theorem granted_of_spares (rec : Record) {res : Bytes} (hspares : rec.call.Spares res)
    (h : History) (r : String) : granted res r (rec :: h) = granted res r h := by
  obtain ⟨env, c, answer⟩ := rec
  by_cases hok : answer.isOk = true
  · have heffect : Record.effect ⟨env, c, answer⟩ = c.effect env := if_pos hok
    rw [granted, heffect]
    cases c with
    | addRingToResource res' r' ps => exact if_neg fun heq => hspares heq.1
    | removeRingFromResource res' => exact if_neg hspares
    | _ => rfl
  · have heffect : Record.effect ⟨env, c, answer⟩ = .nothing := if_neg hok
    rw [granted, heffect]

/-- The call does not associate the resource. -/
def Call.LeavesOff (resourceId : Bytes) : Call → Prop
  | .addRingToResource res _ _ => res ≠ resourceId
  | _ => True

/-- What is granted to no ring stays so until the resource is associated. -/
theorem granted_of_leavesOff (rec : Record) {res : Bytes} (hoff : rec.call.LeavesOff res)
    {h : History} {r : String} (hnone : granted res r h = none) :
    granted res r (rec :: h) = none := by
  obtain ⟨env, c, answer⟩ := rec
  by_cases hok : answer.isOk = true
  · have heffect : Record.effect ⟨env, c, answer⟩ = c.effect env := if_pos hok
    rw [granted, heffect]
    cases c with
    | addRingToResource res' r' ps => exact (if_neg fun heq => hoff heq.1).trans hnone
    | removeRingFromResource res' => exact (congrArg _ hnone).trans (ite_self none)
    | _ => exact hnone
  · have heffect : Record.effect ⟨env, c, answer⟩ = .nothing := if_neg hok
    rw [granted, heffect]
    exact hnone

theorem ringExists_cons (rec : Record) (h : History) (r : String) :
    RingExists (rec :: h) r ↔ RingExists h r ∨ rec.effect = .created r := by
  simp only [RingExists, List.mem_cons, exists_eq_or_imp, or_assoc]
  rw [or_comm (a := rec.effect = _)]

end IrohRings
