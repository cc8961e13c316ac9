import IrohRings.Backends.Histories

/-!
# IrohRings.Backends.Errors

Errors are exact, and leave the state as it was. `Call.documentedError` is the
documentation of the trait as a function: the error a call is documented to return,
given the rings that exist. In every state of either backend a call fails exactly
when and exactly as documented (`errors_are_exact`) — so never with a storage error
or a panic, since everything that is stored decodes (`Inner.Decodes`,
`RedbRegistry.Decodes`).
-/

namespace IrohRings

open Foundation

/-- How the call failed, if it did. -/
def Outcome.fault {α : Type} : Outcome α → Option Fault
  | .ok _ => none
  | .error e => some e

variable [EndpointKeys]

def Answer.fault : Answer → Option Fault
  | .unit out => Outcome.fault out
  | .members out => Outcome.fault out
  | .rings out => Outcome.fault out
  | .resourceRings out => Outcome.fault out
  | .granted out => Outcome.fault out
  | .evicted out => Outcome.fault out

/-! ### The documentation

The trait documents for each of its operations which errors it may return and when. As
a function of the rings that exist, with the order in which the source checks. -/

open Classical in
/-- The error documented for a call when the rings that exist are `present`; the
first condition that holds decides. -/
noncomputable def Call.documentedError (present : String → Prop) : Call → Option Error
  | .createRing r =>
    if r = "" then some .ringNameEmpty
    else if r.toList.any isInvalidChar then some .ringNameInvalidChars
    else if r = openRingName then some (.ringNameReserved openRingName)
    else if present r then some (.ringAlreadyExists r)
    else none
  | .addPeerToRing r _ _ _ => if present r then none else some (.ringNotFound r)
  | .removePeerFromRing r _ => if present r then none else some (.ringNotFound r)
  | .listRingPeers r => if present r then none else some (.ringNotFound r)
  | .addRingToResource _ r permissions =>
    if permissions = [] then some .emptyPermissionSet
    else if r = openRingName ∧ ∃ q ∈ permissions, q ≠ .read then some .openRingReadOnly
    else if present r then none
    else some (.ringNotFound r)
  | _ => none

/-- The call fails exactly as documented, and then nothing has changed. -/
structure ErrorsExact {σ : Type} [Registry σ] (present : String → Prop) (env : Env) (s : σ)
    (c : Call) : Prop where
  fault : (Registry.perform env s c).1.fault = (c.documentedError present).map Fault.err
  unchanged : (Registry.perform env s c).1.fault ≠ none → (Registry.perform env s c).2 = s

/-- A call that fails as documented and changes nothing, or is not documented to fail
and does not. -/
theorem ErrorsExact.of_cases {σ : Type} [Registry σ] {present : String → Prop} {env : Env}
    {s : σ} {c : Call}
    (h : (∃ e, c.documentedError present = some e ∧
        (Registry.perform env s c).1.fault = some (.err e) ∧
        (Registry.perform env s c).2 = s) ∨
      (c.documentedError present = none ∧ (Registry.perform env s c).1.fault = none)) :
    ErrorsExact present env s c := by
  rcases h with ⟨e, hdoc, hfault, hsame⟩ | ⟨hdoc, hfault⟩
  · exact ⟨by rw [hfault, hdoc]; rfl, fun _ => hsame⟩
  · exact ⟨by rw [hfault, hdoc]; rfl, fun hne => absurd hfault hne⟩

/-! ### Names and permission sets -/

/-- The documentation of `createRing`, as its checks are made. -/
theorem documentedError_createRing (present : String → Prop) (r : String) :
    (Call.createRing r).documentedError present =
      match Ring.new r with
      | .error e => some e
      | .ok ring =>
        if ring.isOpen then some (.ringNameReserved openRingName)
        else open Classical in if present r then some (.ringAlreadyExists r) else none := by
  simp only [Call.documentedError]
  by_cases hv : ValidName r
  · rw [Ring.new_of_valid hv, if_neg hv.1, if_neg (by rw [hv.2]; exact Bool.false_ne_true)]
    simp [Ring.isOpen]
  · rw [Ring.new_of_invalid hv]
    by_cases hempty : r = ""
    · simp [hempty]
    · have hchars : r.toList.any isInvalidChar = true := by
        by_contra hnot
        exact hv ⟨hempty, by simpa using hnot⟩
      simp only [if_neg hempty, if_pos hchars]

/-- The documentation of `addRingToResource`, as its checks are made. -/
theorem documentedError_addRingToResource (present : String → Prop) (res : Bytes) (r : String)
    (ps : List Permission) :
    (Call.addRingToResource res r ps).documentedError present =
      match validateRingPermissions r ps with
      | .error e => some e
      | .ok () => open Classical in if present r then none else some (.ringNotFound r) := by
  have hany : (∃ q ∈ ps, q ≠ Permission.read) ↔ ps.any (· ≠ .read) = true := by
    simp
  simp only [Call.documentedError, validateRingPermissions, hany, List.isEmpty_iff]
  by_cases hempty : ps = []
  · simp [hempty]
  · rw [if_neg hempty, if_neg hempty]
    split
    · rfl
    · rfl

/-! ### The in-memory registry

Beside the documented errors there are three more ways to fail in the source: an
`expect` on a stored ring name, a stored peer id that is no key, and a lock that was
poisoned. The first two need something to be stored that does not decode; the third is
not modelled, as nothing here panics while it holds the lock. -/

namespace Inner

variable {inner : Inner} {present : String → Prop}

/-- Everything the maps store reads back: no `expect` on a stored name panics, and no
stored peer id is a storage error. -/
structure Decodes (inner : Inner) : Prop where
  ringNames : ∀ r ∈ inner.rings, ∃ ring, Ring.new r = .ok ring
  members : ∀ (r : String) (ms : List PeerBytes), inner.rings[r]? = some ms →
    ∀ b ∈ ms, ∃ p, decodeEndpointId b = .ok p
  labels : ∀ id ∈ inner.labels, ∃ p, decodeEndpointId id.2 = .ok p
  expiries : ∀ id ∈ inner.expiries, ∃ p, decodeEndpointId id.2 = .ok p
  resourceRings : ∀ res, ∀ r ∈ inner.ringNames res, ∃ ring, Ring.new r = .ok ring

theorem WellFormed.decodes (h : inner.WellFormed) : inner.Decodes := by
  have hpeer : ∀ id : MemberId, id.2 ∈ inner.members id.1 →
      ∃ p, decodeEndpointId id.2 = .ok p := fun id hid =>
    ⟨_, decodeEndpointId_asBytes ⟨id.2, h.keys id.1 id.2 hid⟩⟩
  constructor
  · exact fun r hr => ⟨_, Ring.new_of_valid (h.names r hr)⟩
  · exact fun r ms hr b hb => hpeer (r, b) (members_of_get hr ▸ hb)
  · exact fun id hid => hpeer id (h.labels id hid)
  · exact fun id hid => hpeer id (h.expiries id hid)
  · exact fun res r hr => ⟨_, Ring.new_of_valid (h.validName_ringNames hr)⟩

open Classical in
/-- A call that is documented to fail only where a ring is absent. -/
theorem errorsExact_of_ring (hpresent : ∀ r, r ∈ inner.rings ↔ present r) {env : Env} {c : Call}
    {r : String}
    (hdoc : c.documentedError present = if present r then none else some (.ringNotFound r))
    (habsent : inner.rings[r]? = none →
      (Registry.perform env inner c).1.fault = some (.err (.ringNotFound r)) ∧
        (Registry.perform env inner c).2 = inner)
    (hfound : ∀ ms, inner.rings[r]? = some ms → (Registry.perform env inner c).1.fault = none) :
    ErrorsExact present env inner c := by
  refine .of_cases ?_
  rw [hdoc]
  cases hr : inner.rings[r]? with
  | none =>
      rw [if_neg ((not_congr (hpresent r)).mp (Table.get_eq_none.mp hr))]
      exact .inl ⟨_, rfl, habsent hr⟩
  | some ms =>
      rw [if_pos ((hpresent r).mp (Table.mem_iff.mpr ⟨ms, hr⟩))]
      exact .inr ⟨rfl, hfound ms hr⟩

/-- **The in-memory registry fails exactly as documented.** -/
theorem WellFormed.errorsExact (h : inner.WellFormed)
    (hpresent : ∀ r, r ∈ inner.rings ↔ present r) (env : Env) (c : Call) :
    ErrorsExact present env inner c := by
  cases c with
  | createRing r =>
      refine .of_cases ?_
      rw [documentedError_createRing]
      show (∃ e, _ ∧ Outcome.fault (inner.createRing r).1 = _ ∧ (inner.createRing r).2 = inner) ∨
        (_ ∧ Outcome.fault (inner.createRing r).1 = none)
      unfold createRing
      cases Ring.new r with
      | error e => exact .inl ⟨e, rfl, rfl, rfl⟩
      | ok ring =>
          dsimp only
          split
          · exact .inl ⟨_, rfl, rfl, rfl⟩
          · by_cases hr : present r
            · rw [if_pos hr, if_pos (by simpa using (hpresent r).mpr hr)]
              exact .inl ⟨_, rfl, rfl, rfl⟩
            · rw [if_neg hr, if_neg (by simpa using mt (hpresent r).mp hr)]
              exact .inr ⟨rfl, rfl⟩
  | addPeerToRing r p label expiresAt =>
      refine errorsExact_of_ring hpresent rfl (fun hr => ?_) fun ms hr => ?_
      · show Outcome.fault (inner.addPeerToRing env r p label expiresAt).1 = _ ∧
          (inner.addPeerToRing env r p label expiresAt).2 = inner
        rw [addPeerToRing, hr]
        exact ⟨rfl, rfl⟩
      · show Outcome.fault (inner.addPeerToRing env r p label expiresAt).1 = none
        rw [addPeerToRing_of_ring hr]
        rfl
  | removePeerFromRing r p =>
      refine errorsExact_of_ring hpresent rfl (fun hr => ?_) fun ms hr => ?_
      · show Outcome.fault (inner.removePeerFromRing r p).1 = _ ∧
          (inner.removePeerFromRing r p).2 = inner
        rw [removePeerFromRing, hr]
        exact ⟨rfl, rfl⟩
      · show Outcome.fault (inner.removePeerFromRing r p).1 = none
        rw [removePeerFromRing_of_ring hr]
        rfl
  | listRingPeers r =>
      refine errorsExact_of_ring hpresent rfl (fun hr => ⟨?_, rfl⟩) fun ms hr => ?_
      · show Outcome.fault (inner.listRingPeers env r) = _
        rw [listRingPeers, hr]
        rfl
      · obtain ⟨members, hok, -⟩ := h.listRingPeers_eq env hr
        exact congrArg Outcome.fault hok
  | addRingToResource res r ps =>
      refine .of_cases ?_
      rw [documentedError_addRingToResource]
      show (∃ e, _ ∧ Outcome.fault (inner.addRingToResource res r ps).1 = _ ∧
        (inner.addRingToResource res r ps).2 = inner) ∨
        (_ ∧ Outcome.fault (inner.addRingToResource res r ps).1 = none)
      unfold addRingToResource
      cases validateRingPermissions r ps with
      | error e => exact .inl ⟨e, rfl, rfl, rfl⟩
      | ok _ =>
          dsimp only
          by_cases hr : present r
          · rw [if_pos hr, if_neg (by simpa using (hpresent r).mpr hr)]
            exact .inr ⟨rfl, rfl⟩
          · rw [if_neg hr, if_pos (by simpa using mt (hpresent r).mp hr)]
            exact .inl ⟨_, rfl, rfl, rfl⟩
  | listRings =>
      obtain ⟨rings, hok, -⟩ := h.listRings_spec env
      exact ⟨congrArg Outcome.fault hok, fun _ => rfl⟩
  | removeRingFromResource res => exact ⟨rfl, fun hfault => absurd rfl hfault⟩
  | listResourceRings res =>
      obtain ⟨listed, hok, -⟩ := h.listResourceRings_eq res
      exact ⟨congrArg Outcome.fault hok, fun _ => rfl⟩
  | hasPermission p res q =>
      obtain ⟨b, hok⟩ := inner.hasPermission_ok env p res q
      exact ⟨congrArg Outcome.fault hok, fun _ => rfl⟩
  | evictExpired n =>
      -- every collected key decodes, so the loop goes through all of them
      obtain ⟨evicted, -, hok⟩ := h.evictExpired_eq env n
      have hfault : Outcome.fault (inner.evictExpired env n).1 = none := by
        rw [hok]
        rfl
      exact ⟨hfault, fun hne => absurd hfault hne⟩

end Inner

/-! ### The redb registry

Every writing operation of redb is one transaction, and an error drops it. So that
nothing changes on an error needs no invariant; that the errors are the documented ones
does. -/

omit [EndpointKeys] in
/-- A transaction that fails aborts. -/
theorem RedbRegistry.commit_of_fault {α : Type} {db : RedbRegistry}
    {x : Outcome (α × RedbRegistry)} (h : Outcome.fault (db.commit x).1 ≠ none) :
    (db.commit x).2 = db := by
  cases x with
  | error e => rfl
  | ok y => exact absurd rfl h

/-- **A call of redb that fails changes nothing**, in any state whatever. -/
theorem RedbRegistry.perform_of_fault {env : Env} {db : RedbRegistry} {c : Call}
    (h : (Registry.perform env db c).1.fault ≠ none) : (Registry.perform env db c).2 = db := by
  cases c with
  | createRing r =>
      change Outcome.fault (db.createRing r).1 ≠ none at h
      show (db.createRing r).2 = db
      unfold createRing at h ⊢
      cases hnew : Ring.new r with
      | error e => rfl
      | ok ring =>
          rw [hnew] at h
          dsimp only at h ⊢
          split
          · rfl
          · rename_i hopen
            rw [if_neg hopen] at h
            exact commit_of_fault h
  | addPeerToRing r p label expiresAt => exact commit_of_fault h
  | removePeerFromRing r p => exact commit_of_fault h
  | removeRingFromResource res => exact absurd rfl h
  | addRingToResource res r ps =>
      change Outcome.fault (db.addRingToResource res r ps).1 ≠ none at h
      show (db.addRingToResource res r ps).2 = db
      unfold addRingToResource at h ⊢
      cases hval : validateRingPermissions r ps with
      | error e => rfl
      | ok _ =>
          rw [hval] at h
          exact commit_of_fault h
  | evictExpired n => exact commit_of_fault h
  | listRingPeers r => rfl
  | listRings => rfl
  | listResourceRings res => rfl
  | hasPermission p res q => rfl

/-- Answers that agree fail in the same way. -/
theorem Answer.Agree.fault_eq {a a' : Answer} (h : a.Agree a') : a.fault = a'.fault := by
  have hrel : ∀ {α : Type} {R : α → α → Prop} {out out' : Outcome α},
      Outcome.Rel R out out' → Outcome.fault out = Outcome.fault out' := by
    intro α R out out' hrel
    cases hrel with
    | ok _ => rfl
    | error e => rfl
  cases h with
  | unit h | members h | granted h => rw [h]
  | rings h | resourceRings h | evicted h => exact hrel h

/-- Everything the tables store reads back. -/
structure RedbRegistry.Decodes (db : RedbRegistry) : Prop where
  ringNames : ∀ r ∈ db.rings, ∃ ring, Ring.new r = .ok ring
  members : ∀ (r : String) (raw : Bytes), db.rings[r]? = some raw →
    ∀ b ∈ decodePeerIds raw, ∃ p, decodeEndpointId b = .ok p
  labels : ∀ key ∈ db.labels, ∃ r p, splitMemberKey key = .ok (r, p)
  expiries : ∀ (key : Bytes) (row : ExpiryRow), db.expiries[key]? = some row →
    (∃ r p, splitMemberKey key = .ok (r, p)) ∧ ∃ t, decodeExpiry row = .ok t
  resourceRings : ∀ res, ∀ r ∈ db.ringNames res, ∃ ring, Ring.new r = .ok ring

namespace Shadows

variable {inner : Inner} {db : RedbRegistry}

theorem decodes (h : Shadows inner db) : db.Decodes := by
  have hread := h.wellFormed.decodes
  -- the key of a stored member splits
  have hkey : ∀ id : MemberId, id.2 ∈ inner.members id.1 →
      ∃ r p, splitMemberKey (memberKeyOfId id) = .ok (r, p) := fun id hid =>
    ⟨_, _, splitMemberKey_memberKey id.1 ⟨id.2, h.wellFormed.keys id.1 id.2 hid⟩⟩
  constructor
  · exact fun r hr => hread.ringNames r ((h.rep.rings.mem Function.injective_id).mp hr)
  · intro r raw hraw b hb
    rw [h.rep.get_ring, Option.map_eq_some_iff] at hraw
    obtain ⟨ms, hms, rfl⟩ := hraw
    rw [decodePeerIds_encodePeerIds] at hb
    exact hread.members r ms hms b hb
  · intro key hmem
    obtain ⟨id, rfl⟩ := h.rep.labels.exists_key hmem
    exact hkey id (h.wellFormed.labels id ((h.rep.labels.mem memberKeyOfId_injective).mp hmem))
  · intro key row hrow
    obtain ⟨id, t, ht, rfl, rfl⟩ := (h.rep.expiries key row).mp hrow
    exact ⟨hkey id (h.wellFormed.expiries id (Table.mem_iff.mpr ⟨t, ht⟩)), clamp t,
      decodeExpiry_encodeExpiry t⟩
  · intro res r hr
    rw [h.rep.ringNames h.wellFormed] at hr
    exact hread.resourceRings res r hr

omit [EndpointKeys] in
/-- What is documented of a call is documented of the clamped call. -/
theorem documentedError_clamp [EndpointKeys] (present : String → Prop) (c : Call) :
    c.clamp.documentedError present = c.documentedError present := by
  cases c <;> rfl

/-- **The redb registry fails exactly as documented**: its shadow does, and gives the
same answers. -/
theorem errorsExact (h : Shadows inner db) {present : String → Prop}
    (hpresent : ∀ r, r ∈ inner.rings ↔ present r) (env : Env) (c : Call) :
    ErrorsExact present env db c := by
  refine ⟨?_, RedbRegistry.perform_of_fault⟩
  cases hc : c.readsPermissions with
  | false =>
      have htime : TimeOk inner env c.clamp := ⟨h.comparable _, fun n _ => h.comparable n⟩
      have hagree := (h.rep.step h.wellFormed htime).answer (by cases c <;> exact hc)
      rw [← perform_clamp, ← hagree.fault_eq,
        (h.wellFormed.errorsExact hpresent env c.clamp).fault, documentedError_clamp]
  | true =>
      -- the two calls that read permission rows are documented not to fail
      cases c with
      | hasPermission p res q =>
          obtain ⟨b, hok, -⟩ := h.rep.hasPermission h.wellFormed (h.comparable env.now) p res q
          exact congrArg Outcome.fault hok
      | listResourceRings res =>
          obtain ⟨listed, hok, -⟩ := h.rep.listResourceRings h.wellFormed res
          exact congrArg Outcome.fault hok
      | _ => cases hc

end Shadows

/-- **Errors are exact**: in every state of either backend, everything stored reads
back, and every call fails exactly as documented, changing nothing if it does. -/
theorem errors_are_exact (events : List Event) :
    ((Backend.run Inner events).2.Decodes ∧ ∀ env c,
      ErrorsExact (RingExists (Backend.run Inner events).1) env (Backend.run Inner events).2 c) ∧
    (Backend.run RedbRegistry events).2.Decodes ∧ ∀ env c,
      ErrorsExact (RingExists (Backend.run RedbRegistry events).1) env
        (Backend.run RedbRegistry events).2 c := by
  have ht := Inner.traces_run events
  obtain ⟨inner, h⟩ := shadow_run events
  exact ⟨⟨ht.wellFormed.decodes, ht.wellFormed.errorsExact ht.rings⟩, h.shadows.decodes,
    h.shadows.errorsExact h.rings⟩

end IrohRings
