import IrohRings.Backends.Memory
import IrohRings.Foundation.Leases

/-!
# IrohRings.Backends.MemorySound

What the in-memory registry's operations do to its maps.

`Inner.WellFormed` is the invariant of every reachable state; its point is that
no label or expiry outlives the membership it belongs to. Under it the three
per-membership maps are one ledger of leases (`Inner.leases`), and every
operation is a ledger operation: adding a peer renews, removing revokes,
evicting keeps what is live.
-/

namespace IrohRings

open Foundation

namespace Inner

/-! ### Field lemmas of the updates

Which map each of the three updates writes, and where; the others are as they were. -/

section Fields

variable (inner : Inner) (key id : MemberId) (label : Option String)
  (expiresAt : Option SystemTime)

@[simp] theorem clear_rings : (inner.clear key).rings = inner.rings := rfl

@[simp] theorem clear_resourceRings :
    (inner.clear key).resourceRings = inner.resourceRings := rfl

theorem clear_labels :
    (inner.clear key).labels[id]? = if id = key then none else inner.labels[id]? := by
  simp only [clear, Table.get_erase]

theorem clear_expiries :
    (inner.clear key).expiries[id]? = if id = key then none else inner.expiries[id]? := by
  simp only [clear, Table.get_erase]

@[simp] theorem annotate_rings : (inner.annotate key label expiresAt).rings = inner.rings := by
  cases label <;> cases expiresAt <;> rfl

@[simp] theorem annotate_resourceRings :
    (inner.annotate key label expiresAt).resourceRings = inner.resourceRings := by
  cases label <;> cases expiresAt <;> rfl

theorem annotate_labels :
    (inner.annotate key label expiresAt).labels[id]? =
      if id = key then label.or inner.labels[id]? else inner.labels[id]? := by
  cases label <;> cases expiresAt <;>
    simp [annotate, Table.get_insert]

theorem annotate_expiries :
    (inner.annotate key label expiresAt).expiries[id]? =
      if id = key then expiresAt.or inner.expiries[id]? else inner.expiries[id]? := by
  cases label <;> cases expiresAt <;>
    simp [annotate, Table.get_insert]

end Fields

/-! ### Members and leases

The registry keeps who is a member in one map, labels in a second and expiries in a
third, the last two keyed by ring and peer. Read together they are one ledger. -/

/-- The members of a ring, in the order they were added. -/
def members (inner : Inner) (r : String) : List PeerBytes := inner.rings[r]?.getD []

/-- The memberships as a ledger: one lease per member of a ring. -/
def leases (inner : Inner) : Ledger MemberId String SystemTime := fun id =>
  if id.2 ∈ inner.members id.1 then some ⟨inner.labels[id]?, inner.expiries[id]?⟩ else none

/-- The rings associated with a resource, in the order they were added. -/
def ringNames (inner : Inner) (resourceId : Bytes) : List String :=
  (inner.resourceRings[resourceId]?.getD []).map Prod.fst

/-- The permissions an association grants. -/
def grants (inner : Inner) (resourceId : Bytes) (r : String) : Option (List Permission) :=
  (inner.resourceRings[resourceId]?.getD []).lookup r

theorem members_of_get {inner : Inner} {r : String} {ms : List PeerBytes}
    (h : inner.rings[r]? = some ms) : inner.members r = ms := by
  simp [members, h]

/-- A member is in the stored list of its ring. -/
theorem exists_of_mem_members {inner : Inner} {r : String} {b : PeerBytes}
    (h : b ∈ inner.members r) : ∃ ms, inner.rings[r]? = some ms ∧ b ∈ ms := by
  unfold members at h
  cases hr : inner.rings[r]? with
  | none => simp [hr] at h
  | some ms => exact ⟨ms, rfl, by simpa [hr] using h⟩

theorem leases_eq_some {inner : Inner} {id : MemberId} {l : Lease String SystemTime} :
    inner.leases id = some l ↔
      id.2 ∈ inner.members id.1 ∧ l = ⟨inner.labels[id]?, inner.expiries[id]?⟩ := by
  unfold leases
  split <;> simp_all [eq_comm]

theorem leases_of_notMem {inner : Inner} {id : MemberId} (h : id.2 ∉ inner.members id.1) :
    inner.leases id = none := if_neg h

theorem leases_of_mem {inner : Inner} {id : MemberId} (h : id.2 ∈ inner.members id.1) :
    inner.leases id = some ⟨inner.labels[id]?, inner.expiries[id]?⟩ := if_pos h

/-- `isExpired` is the lapse of the lease. -/
theorem isExpired_iff (inner : Inner) (r : String) (p : PeerBytes) (now : SystemTime) :
    inner.isExpired r p now = true ↔
      (Lease.mk inner.labels[(r, p)]? inner.expiries[(r, p)]?).Lapsed now := by
  rw [isExpired, Option.any_eq_true]
  simp [Lease.Lapsed]

/-- The live lease of a membership. -/
theorem live_leases {inner : Inner} {id : MemberId} {now : SystemTime} :
    inner.leases.live now id =
      if id.2 ∈ inner.members id.1 ∧ inner.isExpired id.1 id.2 now = false then
        some ⟨inner.labels[id]?, inner.expiries[id]?⟩
      else none := by
  refine Option.ext fun l => ?_
  rw [Ledger.live_eq_some, leases_eq_some]
  have hexp := isExpired_iff inner id.1 id.2 now
  by_cases hm : id.2 ∈ inner.members id.1
  · cases he : inner.isExpired id.1 id.2 now with
    | true =>
        simp only [hm, true_and, reduceCtorEq, if_false, iff_false, not_and, not_not]
        intro heq
        subst heq
        exact hexp.mp he
    | false =>
        have hlive := mt hexp.mpr (by simp [he])
        simp only [hm, true_and, if_true, Option.some.injEq]
        constructor
        · intro hand
          rcases hand with ⟨rfl, -⟩
          rfl
        · intro heq
          subst heq
          exact ⟨rfl, hlive⟩
  · simp [hm]

/-! ### The invariant -/

/-- The entries stored for a resource: not empty, one per ring, each for an
existing ring, with permissions the validation let through. -/
structure EntriesOk (inner : Inner) (es : List (String × List Permission)) : Prop where
  ne_nil : es ≠ []
  nodup : (es.map Prod.fst).Nodup
  exists_ring : ∀ e ∈ es, e.1 ∈ inner.rings
  perms : ∀ e ∈ es, validateRingPermissions e.1 e.2 = .ok ()

/-- The invariant of every reachable in-memory registry. -/
structure WellFormed [EndpointKeys] (inner : Inner) : Prop where
  openRing : openRingName ∈ inner.rings
  names : ∀ r ∈ inner.rings, ValidName r
  nodup : ∀ r, (inner.members r).Nodup
  keys : ∀ r, ∀ b ∈ inner.members r, EndpointKeys.isKey b = true
  /-- No label outlives its membership. -/
  labels : ∀ id, id ∈ inner.labels → id.2 ∈ inner.members id.1
  /-- No expiry outlives its membership. -/
  expiries : ∀ id, id ∈ inner.expiries → id.2 ∈ inner.members id.1
  entries : ∀ (resourceId : Bytes) (es : List (String × List Permission)),
    inner.resourceRings[resourceId]? = some es → inner.EntriesOk es

/-- The grants are the entries that are stored for the resource. -/
theorem WellFormed.grants_eq_some [EndpointKeys] {inner : Inner} (h : inner.WellFormed)
    {resourceId : Bytes} {r : String} {ps : List Permission} :
    inner.grants resourceId r = some ps ↔
      (r, ps) ∈ inner.resourceRings[resourceId]?.getD [] := by
  unfold grants
  cases hes : inner.resourceRings[resourceId]? with
  | none => simp
  | some es =>
      rw [Option.getD_some, Table.lookup_eq_some_iff (h.entries resourceId es hes).nodup]

/-- A stored entry is for a ring that exists, with permissions that were validated. -/
theorem WellFormed.entry_ok [EndpointKeys] {inner : Inner} (h : inner.WellFormed)
    {resourceId : Bytes} {e : String × List Permission}
    (he : e ∈ inner.resourceRings[resourceId]?.getD []) :
    e.1 ∈ inner.rings ∧ validateRingPermissions e.1 e.2 = .ok () := by
  cases hes : inner.resourceRings[resourceId]? with
  | none => simp [hes] at he
  | some es =>
      rw [hes, Option.getD_some] at he
      have hok := h.entries resourceId es hes
      exact ⟨hok.exists_ring e he, hok.perms e he⟩

/-- A ring associated with a resource exists. -/
theorem WellFormed.mem_rings_of_ringNames [EndpointKeys] {inner : Inner} (h : inner.WellFormed)
    {resourceId : Bytes} {r : String} (hr : r ∈ inner.ringNames resourceId) :
    r ∈ inner.rings := by
  obtain ⟨e, he, rfl⟩ := List.mem_map.mp hr
  exact (h.entry_ok he).1

theorem WellFormed.validName_ringNames [EndpointKeys] {inner : Inner} (h : inner.WellFormed)
    {resourceId : Bytes} {r : String} (hr : r ∈ inner.ringNames resourceId) : ValidName r :=
  h.names r (h.mem_rings_of_ringNames hr)

/-! ### What each operation does

A closed form for each writing operation: on success it is one of the updates above, on
failure it is nothing. -/

/-- `createRing` fails and changes nothing, or adds a ring without members. -/
theorem createRing_cases (inner : Inner) (r : String) :
    (∃ e, inner.createRing r = (.err e, inner)) ∨
      (ValidName r ∧ r ∉ inner.rings ∧
        inner.createRing r = (.ok (), { inner with rings := inner.rings.insert r [] })) := by
  unfold createRing
  by_cases hv : ValidName r
  · rw [Ring.new_of_valid hv]
    dsimp only
    split
    · exact .inl ⟨_, rfl⟩
    · split
      · exact .inl ⟨_, rfl⟩
      · rename_i hnew
        exact .inr ⟨hv, by simpa using hnew, rfl⟩
  · rw [Ring.new_of_invalid hv]
    exact .inl ⟨_, rfl⟩

theorem members_insert (inner : Inner) (r r' : String) (ms : List PeerBytes) :
    ({ inner with rings := inner.rings.insert r ms } : Inner).members r' =
      if r' = r then ms else inner.members r' := by
  simp only [members, Table.get_insert]
  split <;> rfl

/-- A new ring has no members, so no membership changes. -/
theorem members_insert_new {inner : Inner} {r : String} (h : r ∉ inner.rings) :
    ({ inner with rings := inner.rings.insert r [] } : Inner).members = inner.members := by
  funext r'
  rw [members_insert]
  split
  · rename_i hr
    rw [hr, members, Table.get_eq_none.mpr h, Option.getD_none]
  · rfl

/-- Forgetting a membership, in every ring at once: only its own ring has it. -/
theorem evictOne_rings (inner : Inner) (key : MemberId) (r : String) :
    (inner.evictOne key).rings[r]? =
      inner.rings[r]?.map fun ms => ms.filter fun b => (r, b) ≠ key := by
  obtain ⟨kr, kp⟩ := key
  -- a ring other than that of the key loses nobody
  have hid : ∀ ms : List PeerBytes, r ≠ kr → ms.filter (fun b => (r, b) ≠ (kr, kp)) = ms := by
    intro ms hne
    simp [Prod.ext_iff, hne]
  unfold evictOne
  cases hk : inner.rings[kr]? with
  | none =>
      by_cases hr : r = kr
      · subst hr
        simp [hk]
      · cases hrr : inner.rings[r]? with
        | none => simp [hrr]
        | some ms => simp only [clear_rings, hrr, Option.map_some, hid ms hr]
  -- the ring of the key is rewritten, and others are looked up past the new row
  | some kms =>
      simp only [clear_rings, Table.get_insert]
      by_cases hr : r = kr
      · subst hr
        simp [hk]
      · rw [if_neg hr]
        cases hrr : inner.rings[r]? with
        | none => rfl
        | some ms => rw [Option.map_some, hid ms hr]

@[simp] theorem evictOne_resourceRings (inner : Inner) (key : MemberId) :
    (inner.evictOne key).resourceRings = inner.resourceRings := by
  unfold evictOne
  split <;> rfl

theorem evictOne_labels (inner : Inner) (key id : MemberId) :
    (inner.evictOne key).labels[id]? = if id = key then none else inner.labels[id]? := by
  unfold evictOne
  split <;> exact clear_labels ..

theorem evictOne_expiries (inner : Inner) (key id : MemberId) :
    (inner.evictOne key).expiries[id]? = if id = key then none else inner.expiries[id]? := by
  unfold evictOne
  split <;> exact clear_expiries ..

/-- Forgetting memberships one after the other. -/
def evictAll (inner : Inner) (keys : List MemberId) : Inner := keys.foldl evictOne inner

theorem evictAll_rings (inner : Inner) (keys : List MemberId) (r : String) :
    (inner.evictAll keys).rings[r]? =
      inner.rings[r]?.map fun ms => ms.filter fun b => (r, b) ∉ keys := by
  unfold evictAll
  induction keys generalizing inner with
  | nil =>
      have hid : ∀ ms : List PeerBytes, ms.filter (fun b => (r, b) ∉ ([] : List MemberId)) = ms :=
        fun ms => List.filter_eq_self.mpr fun b _ => by simp
      rw [List.foldl_nil, show (fun ms : List PeerBytes => ms.filter fun b =>
        (r, b) ∉ ([] : List MemberId)) = id from funext hid, Option.map_id, id]
  | cons key keys ih =>
      rw [List.foldl_cons, ih, evictOne_rings, Option.map_map]
      congr 1
      funext ms
      rw [Function.comp_apply, List.filter_filter]
      congr 1
      funext b
      simp only [List.mem_cons, not_or, Bool.decide_and, Bool.and_comm]

theorem mem_evictAll_rings {inner : Inner} {keys : List MemberId} {r : String} :
    r ∈ (inner.evictAll keys).rings ↔ r ∈ inner.rings := by
  rw [Table.mem_iff, Table.mem_iff, evictAll_rings]
  cases inner.rings[r]? <;> simp

@[simp] theorem evictAll_resourceRings (inner : Inner) (keys : List MemberId) :
    (inner.evictAll keys).resourceRings = inner.resourceRings := by
  unfold evictAll
  induction keys generalizing inner with
  | nil => rfl
  | cons key keys ih => rw [List.foldl_cons, ih, evictOne_resourceRings]

theorem evictAll_labels (inner : Inner) (keys : List MemberId) (id : MemberId) :
    (inner.evictAll keys).labels[id]? = if id ∈ keys then none else inner.labels[id]? := by
  unfold evictAll
  induction keys generalizing inner with
  | nil => simp
  | cons key keys ih =>
      rw [List.foldl_cons, ih, evictOne_labels]
      by_cases h : id = key <;> by_cases h' : id ∈ keys <;> simp [h, h']

theorem evictAll_expiries (inner : Inner) (keys : List MemberId) (id : MemberId) :
    (inner.evictAll keys).expiries[id]? = if id ∈ keys then none else inner.expiries[id]? := by
  unfold evictAll
  induction keys generalizing inner with
  | nil => simp
  | cons key keys ih =>
      rw [List.foldl_cons, ih, evictOne_expiries]
      by_cases h : id = key <;> by_cases h' : id ∈ keys <;> simp [h, h']

theorem evictAll_members (inner : Inner) (keys : List MemberId) (r : String) :
    (inner.evictAll keys).members r = (inner.members r).filter fun b => (r, b) ∉ keys := by
  rw [members, evictAll_rings, members]
  cases inner.rings[r]? <;> rfl

/-- Removing a peer is forgetting its membership. -/
theorem evictOne_eq_evictAll (inner : Inner) (key : MemberId) :
    inner.evictOne key = inner.evictAll [key] := rfl

section Keys

variable [EndpointKeys]

theorem addPeerToRing_of_ring {env : Env} {inner : Inner} {r : String} {p : EndpointId}
    {label : Option String} {expiresAt : Option SystemTime} {ms : List PeerBytes}
    (h : inner.rings[r]? = some ms) :
    inner.addPeerToRing env r p label expiresAt =
      (.ok (), (inner.enroll r ms p.asBytes env.now).annotate (r, p.asBytes) label
        expiresAt) := by
  simp only [addPeerToRing, h]

theorem removePeerFromRing_of_ring {inner : Inner} {r : String} {p : EndpointId}
    {ms : List PeerBytes} (h : inner.rings[r]? = some ms) :
    inner.removePeerFromRing r p = (.ok (), inner.evictAll [(r, p.asBytes)]) := by
  simp only [removePeerFromRing, ← evictOne_eq_evictAll, evictOne, h]

/-- The eviction loop, when every key decodes: it reports the memberships in the
order it goes through them, and forgets them all. -/
theorem evictLoop_eq (inner : Inner) {keys : List MemberId}
    (hkeys : ∀ key ∈ keys, EndpointKeys.isKey key.2 = true) (done : List EvictedMembership) :
    ∃ evicted : List EvictedMembership,
      evicted.map (fun m => (m.ringName, m.peer.asBytes)) = keys ∧
        inner.evictLoop keys done = (.ok (done ++ evicted), inner.evictAll keys) := by
  induction keys generalizing inner done with
  | nil => exact ⟨[], rfl, by simp [evictLoop, evictAll]⟩
  | cons key keys ih =>
      have hkey : decodeEndpointId key.2 = .ok ⟨key.2, hkeys key (by simp)⟩ :=
        decodeEndpointId_asBytes ⟨key.2, hkeys key (by simp)⟩
      -- the round changes the maps before it decodes, so the rest runs on the changed ones
      obtain ⟨evicted, hmap, heq⟩ := ih (inner.evictOne key)
        (fun k hk => hkeys k (by simp [hk])) (done ++ [⟨key.1, ⟨key.2, hkeys key (by simp)⟩⟩])
      refine ⟨⟨key.1, ⟨key.2, hkeys key (by simp)⟩⟩ :: evicted, by simp [hmap], ?_⟩
      simp only [evictLoop, hkey, heq, evictAll, List.foldl_cons, List.append_assoc,
        List.singleton_append]

/-- The keys `evictExpired` collects. -/
def expiredKeys (env : Env) (inner : Inner) (n : SystemTime) : List MemberId :=
  ((env.order.iter inner.expiries.toList).filter (·.2 ≤ n)).map (·.1)

omit [EndpointKeys] in
theorem mem_expiredKeys {env : Env} {inner : Inner} {n : SystemTime} {id : MemberId} :
    id ∈ inner.expiredKeys env n ↔ ∃ t, inner.expiries[id]? = some t ∧ t ≤ n := by
  simp only [expiredKeys, List.mem_map, List.mem_filter, decide_eq_true_eq]
  constructor
  · intro hex
    rcases hex with ⟨⟨id', t⟩, ⟨hmem, ht⟩, rfl⟩
    rw [(env.order.perm _).mem_iff] at hmem
    exact ⟨t, Std.ExtTreeMap.mem_toList_iff_getElem?_eq_some.mp hmem, ht⟩
  · intro hex
    rcases hex with ⟨t, hget, ht⟩
    refine ⟨(id, t), ⟨?_, ht⟩, rfl⟩
    rw [(env.order.perm _).mem_iff]
    exact Std.ExtTreeMap.mem_toList_iff_getElem?_eq_some.mpr hget

omit [EndpointKeys] in
theorem nodup_expiredKeys (env : Env) (inner : Inner) (n : SystemTime) :
    (inner.expiredKeys env n).Nodup := by
  have hall : ((env.order.iter inner.expiries.toList).map Prod.fst).Nodup :=
    ((env.order.perm _).map Prod.fst).nodup_iff.mpr (Table.nodup_map_fst_toList _)
  exact hall.sublist (List.filter_sublist.map Prod.fst)

/-- An expiry belongs to a member, so its key decodes. -/
theorem WellFormed.isKey_expiredKeys {inner : Inner} (h : inner.WellFormed) (env : Env)
    (n : SystemTime) : ∀ key ∈ inner.expiredKeys env n, EndpointKeys.isKey key.2 = true := by
  intro key hkey
  obtain ⟨t, ht, -⟩ := mem_expiredKeys.mp hkey
  exact h.keys key.1 key.2 (h.expiries key (Table.mem_iff.mpr ⟨t, ht⟩))

/-- **Eviction**: exactly the memberships whose expiry is at or before `n` are
forgotten and reported. -/
theorem WellFormed.evictExpired_eq {inner : Inner} (h : inner.WellFormed) (env : Env)
    (n : SystemTime) :
    ∃ evicted : List EvictedMembership,
      evicted.map (fun m => (m.ringName, m.peer.asBytes)) = inner.expiredKeys env n ∧
        inner.evictExpired env n = (.ok evicted, inner.evictAll (inner.expiredKeys env n)) := by
  obtain ⟨evicted, hmap, heq⟩ :=
    evictLoop_eq inner (h.isKey_expiredKeys env n) []
  exact ⟨evicted, hmap, heq⟩

end Keys

end Inner

end IrohRings
