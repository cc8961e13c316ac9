import IrohRings.Backends.Histories

/-!
# IrohRings.Backends.EvictionExact

`evictExpired` removes exactly the expired memberships. What a registry holds is put
in terms that both backends share (`Holdings`); on these, evicting is a filter
(`Holdings.evict`), and either backend's `evictExpired` refines it
(`evictExpired_exact`): the report names each expired membership once, nothing else
changes, and evicting again finds nothing to do.
-/

namespace IrohRings

open Foundation

/-! ### Holdings -/

/-- What a registry holds: the member list of each ring that exists, the label and the
expiry recorded for a membership, and the rings and permissions of each resource. -/
@[ext]
structure Holdings where
  members : String → Option (List PeerBytes)
  label : MemberId → Option String
  expiry : MemberId → Option SystemTime
  associations : Bytes → List (String × List Permission)

namespace Holdings

/-- The recorded expiry of the membership is at or before `now`. -/
def expired (h : Holdings) (now : SystemTime) (id : MemberId) : Bool :=
  (h.expiry id).any (· ≤ now)

/-- Forget the expired memberships, and leave everything else as it is. -/
def evict (h : Holdings) (now : SystemTime) : Holdings where
  members r := (h.members r).map fun ms => ms.filter fun b => ¬ h.expired now (r, b)
  label id := if h.expired now id then none else h.label id
  expiry id := if h.expired now id then none else h.expiry id
  associations := h.associations

theorem expired_iff {h : Holdings} {now : SystemTime} {id : MemberId} :
    h.expired now id = true ↔ ∃ t, h.expiry id = some t ∧ t ≤ now := by
  simp [expired, Option.any_eq_true]

/-- Nothing that is left has expired by then. -/
theorem expired_evict {h : Holdings} {now now' : SystemTime} (hle : now' ≤ now)
    (id : MemberId) : (h.evict now).expired now' id = false := by
  rw [Bool.eq_false_iff, ne_eq, expired_iff]
  intro hex
  obtain ⟨t, ht, hpast⟩ := hex
  rw [evict] at ht
  dsimp only at ht
  split at ht
  · cases ht
  · rename_i hnot
    exact hnot (expired_iff.mpr ⟨t, ht, hpast.trans hle⟩)

end Holdings

/-- What the maps hold. -/
def Inner.holdings (inner : Inner) : Holdings where
  members r := inner.rings[r]?
  label id := inner.labels[id]?
  expiry id := inner.expiries[id]?
  associations res := inner.resourceRings[res]?.getD []

/-- What the tables hold, decoded. -/
def RedbRegistry.holdings (db : RedbRegistry) : Holdings where
  members r := db.rings[r]?.map decodePeerIds
  label id := db.labels[memberKeyOfId id]?
  expiry id := db.expiries[memberKeyOfId id]?.bind fun row => (decodeExpiry row).toOption
  associations res := (db.ringNames res).map fun r => (r, db.storedPerms res r)

variable [EndpointKeys]

/-- The ring and the peer a report names. -/
def EvictedMembership.id (m : EvictedMembership) : MemberId := (m.ringName, m.peer.asBytes)

/-- `evictExpired` at `now` reports the expired memberships, each of them once and
each of them a member; it forgets them and nothing else; and after it there is
nothing left to evict at or before `now`. -/
structure EvictsExactly {σ : Type} [Registry σ] (holdings : σ → Holdings) (env : Env) (s : σ)
    (now : SystemTime) : Prop where
  reported : ∃ evicted, (Registry.evictExpired env s now).1 = .ok evicted ∧
    (evicted.map EvictedMembership.id).Nodup ∧
    ∀ id, id ∈ evicted.map EvictedMembership.id ↔ (holdings s).expired now id = true
  member : ∀ id, (holdings s).expired now id = true →
    ∃ ms, (holdings s).members id.1 = some ms ∧ id.2 ∈ ms
  forgotten : holdings (Registry.evictExpired env s now).2 = (holdings s).evict now
  again : ∀ env' now', now' ≤ now →
    Registry.evictExpired env' (Registry.evictExpired env s now).2 now' =
      (.ok [], (Registry.evictExpired env s now).2)

/-! ### The in-memory registry -/

namespace Inner

variable {inner : Inner}

omit [EndpointKeys] in
theorem mem_expiredKeys_iff (env : Env) {now : SystemTime} {id : MemberId} :
    id ∈ inner.expiredKeys env now ↔ inner.holdings.expired now id = true := by
  rw [mem_expiredKeys, Holdings.expired_iff]
  rfl

omit [EndpointKeys] in
/-- Forgetting the expired keys is evicting the holdings. -/
theorem holdings_evictAll (env : Env) (inner : Inner) (now : SystemTime) :
    (inner.evictAll (inner.expiredKeys env now)).holdings = inner.holdings.evict now := by
  ext1
  · funext r
    show (inner.evictAll _).rings[r]? = inner.rings[r]?.map _
    rw [evictAll_rings]
    congr 1
    funext ms
    refine List.filter_congr fun b _ => ?_
    rw [decide_eq_decide, mem_expiredKeys_iff env]
  · funext id
    show (inner.evictAll _).labels[id]? = _
    rw [evictAll_labels]
    exact if_congr (mem_expiredKeys_iff env) rfl rfl
  · funext id
    show (inner.evictAll _).expiries[id]? = _
    rw [evictAll_expiries]
    exact if_congr (mem_expiredKeys_iff env) rfl rfl
  · funext res
    show (inner.evictAll _).resourceRings[res]?.getD [] = _
    rw [evictAll_resourceRings]
    rfl

omit [EndpointKeys] in
/-- Where nothing has expired, no key is collected. -/
theorem expiredKeys_eq_nil (env : Env) {now : SystemTime}
    (h : ∀ id, inner.holdings.expired now id = false) : inner.expiredKeys env now = [] := by
  refine List.eq_nil_iff_forall_not_mem.mpr fun id hid => ?_
  rw [mem_expiredKeys_iff env, h id] at hid
  cases hid

/-- **The in-memory registry evicts exactly what has expired.** -/
theorem WellFormed.evictsExactly (h : inner.WellFormed) (env : Env) (now : SystemTime) :
    EvictsExactly holdings env inner now := by
  obtain ⟨evicted, hmap, heq⟩ := h.evictExpired_eq env now
  have hafter : (Registry.evictExpired env inner now).2 =
      inner.evictAll (inner.expiredKeys env now) := congrArg Prod.snd heq
  refine ⟨⟨evicted, congrArg Prod.fst heq, ?_, fun id => ?_⟩, fun id hid => ?_, ?_, ?_⟩
  · exact hmap ▸ nodup_expiredKeys env inner now
  · rw [← mem_expiredKeys_iff env, ← hmap]
    rfl
  · -- an expiry does not outlive its membership
    obtain ⟨t, ht, -⟩ := Holdings.expired_iff.mp hid
    exact exists_of_mem_members (h.expiries id (Table.mem_iff.mpr ⟨t, ht⟩))
  · rw [hafter, holdings_evictAll]
  · intro env' now' hle
    rw [hafter]
    have hnone := expiredKeys_eq_nil env'
      (holdings_evictAll env inner now ▸ Holdings.expired_evict hle)
    show (inner.evictAll _).evictLoop (expiredKeys env' _ now') [] = _
    rw [hnone]
    rfl

end Inner

/-! ### The redb registry -/

namespace Shadows

variable {inner : Inner} {db : RedbRegistry}

theorem members_eq (h : Shadows inner db) : db.holdings.members = inner.holdings.members := by
  funext r
  show db.rings[r]?.map decodePeerIds = inner.rings[r]?
  rw [h.rep.get_ring, Option.map_map]
  cases inner.rings[r]? <;> simp

theorem label_eq (h : Shadows inner db) : db.holdings.label = inner.holdings.label :=
  funext fun id => h.rep.get_label id.1 id.2

/-- What a shadow records is not before the epoch, so it is stored as it is. -/
theorem expiry_eq (h : Shadows inner db) : db.holdings.expiry = inner.holdings.expiry := by
  funext id
  show db.expiries[memberKeyOfId id]?.bind _ = inner.expiries[id]?
  rw [memberKeyOfId, h.rep.get_expiry]
  cases ht : inner.expiries[id]? with
  | none => rfl
  | some t =>
      have hmem := h.wellFormed.expiries id (Table.mem_iff.mpr ⟨t, ht⟩)
      have hle := h.notBefore id _ (Inner.leases_of_mem hmem) t ht
      rw [Option.map_some, Option.bind_some, decodeExpiry_encodeExpiry, clamp_of_le hle]
      rfl

theorem expired_eq (h : Shadows inner db) (now : SystemTime) (id : MemberId) :
    db.holdings.expired now id = inner.holdings.expired now id := by
  rw [Holdings.expired, Holdings.expired, h.expiry_eq]

/-- Where nothing has expired, evicting changes nothing. -/
theorem evictExpired_of_none (h : Shadows inner db) (env : Env) {now : SystemTime}
    (hnone : ∀ id, db.holdings.expired now id = false) :
    db.evictExpired env now = (.ok [], db) := by
  obtain ⟨expired, hok, hperm, -⟩ := h.rep.collectExpired h.wellFormed env (h.comparable now)
  rw [Inner.expiredKeys_eq_nil env fun id => (h.expired_eq now id).symm.trans (hnone id)] at hperm
  obtain rfl := List.map_eq_nil_iff.mp hperm.eq_nil
  -- no group, so no ring is rewritten and no row deleted
  have hgroups : env.order.iter (RedbRegistry.groupByRing []).toList = [] :=
    List.perm_nil.mp (env.order.perm _)
  simp only [RedbRegistry.evictExpired, hok, bind, Except.bind, hgroups]
  rfl

/-- **The redb registry evicts exactly what has expired.** -/
theorem evictsExactly (h : Shadows inner db) (env : Env) (now : SystemTime) :
    EvictsExactly RedbRegistry.holdings env db now := by
  obtain ⟨evicted, evicted', heq, hok, hperm, hrep, hrows⟩ :=
    h.rep.evictExpired h.wellFormed env (h.comparable now)
  have hexact := h.wellFormed.evictsExactly env now
  -- the shadow of the database after the call is the evicted shadow
  have hafter : Shadows (inner.evictAll (inner.expiredKeys env now))
      (db.evictExpired env now).2 := by
    have hstep := (h.step env (.evictExpired now)).shadows
    have hinner : (Registry.perform env inner (Call.evictExpired now).clamp).2 =
        inner.evictAll (inner.expiredKeys env now) := congrArg Prod.snd heq
    rw [hinner] at hstep
    exact hstep
  have hevict := Inner.holdings_evictAll env inner now
  have hforgotten : (db.evictExpired env now).2.holdings = db.holdings.evict now := by
    ext1
    · rw [hafter.members_eq, hevict]
      simp only [Holdings.evict, h.members_eq, h.expired_eq]
    · rw [hafter.label_eq, hevict]
      simp only [Holdings.evict, h.label_eq, h.expired_eq]
    · rw [hafter.expiry_eq, hevict]
      simp only [Holdings.evict, h.expiry_eq, h.expired_eq]
    · funext res
      have hnames : (db.evictExpired env now).2.ringNames res = db.ringNames res := by
        rw [hrep.ringNames hafter.wellFormed, h.rep.ringNames h.wellFormed, Inner.ringNames,
          Inner.evictAll_resourceRings, Inner.ringNames]
      simp only [RedbRegistry.holdings, Holdings.evict, hnames, RedbRegistry.storedPerms, hrows]
  obtain ⟨listed, hlisted, hnodup, hreport⟩ := hexact.reported
  obtain rfl : evicted = listed := Except.ok.inj ((congrArg Prod.fst heq).symm.trans hlisted)
  refine ⟨⟨evicted', hok, ?_, fun id => ?_⟩, fun id hid => ?_, hforgotten, ?_⟩
  · exact (hperm.map _).nodup_iff.mp hnodup
  · rw [← (hperm.map _).mem_iff, hreport, h.expired_eq]
  · rw [h.members_eq]
    exact hexact.member id ((h.expired_eq now id).symm.trans hid)
  · intro env' now' hle
    exact hafter.evictExpired_of_none env' (hforgotten ▸ Holdings.expired_evict hle)

end Shadows

/-- **`evictExpired` is exact**, in every state of either backend and at every instant. -/
theorem evictExpired_exact (events : List Event) (env : Env) (now : SystemTime) :
    EvictsExactly Inner.holdings env (Backend.run Inner events).2 now ∧
      EvictsExactly RedbRegistry.holdings env (Backend.run RedbRegistry events).2 now := by
  obtain ⟨inner, h⟩ := shadow_run events
  exact ⟨(Inner.traces_run events).wellFormed.evictsExactly env now,
    h.shadows.evictsExactly env now⟩

end IrohRings
