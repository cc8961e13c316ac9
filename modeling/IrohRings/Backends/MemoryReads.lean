import Mathlib.Data.List.Nodup
import IrohRings.Backends.MemoryInvariant

/-!
# IrohRings.Backends.MemoryReads

What the reading operations of a well-formed in-memory registry report, in terms
of its leases and grants: a ring's listing is its live leases, and a permission
is held through a live lease in a ring that grants it, or through the open ring.

A lease that has expired is still stored until it is evicted, or its peer is added
again, so every reading operation looks at the clock. What they report is what the
ledger says of the leases that are live at that moment; that is the only place where
expired leases are told from others.
-/

namespace IrohRings

open Foundation

/-- What an entry of a listing shows. -/
def RingMember.shown [EndpointKeys] (m : RingMember) :
    PeerBytes × Option String × Option SystemTime :=
  (m.peer.asBytes, m.label, m.expiresAt)

theorem RingMember.shown_injective [EndpointKeys] : Function.Injective RingMember.shown := by
  intro m m' h
  obtain ⟨hpeer, hrest⟩ := Prod.mk.inj h
  obtain ⟨hlabel, hexpiry⟩ := Prod.mk.inj hrest
  exact RingMember.ext (EndpointId.ext hpeer) hlabel hexpiry

namespace Inner

variable {inner : Inner}

/-- A member that has not expired is a live lease. -/
theorem mem_and_not_expired_iff (inner : Inner) (id : MemberId) (now : SystemTime) :
    (id.2 ∈ inner.members id.1 ∧ ¬ inner.isExpired id.1 id.2 now = true) ↔
      (inner.leases.live now id).isSome := by
  rw [live_leases, Bool.not_eq_true]
  split <;> simp [*]

/-- The loop of `hasPermission` finds an entry that grants the permission to the
peer, if there is one. -/
theorem scanEntries_iff {now : SystemTime} {p : PeerBytes} {q : Permission}
    {es : List (String × List Permission)} :
    inner.scanEntries now p q es = true ↔
      ∃ e ∈ es, q ∈ e.2 ∧ (e.1 = openRingName ∨ (inner.leases.live now (e.1, p)).isSome) := by
  induction es with
  | nil => simp [scanEntries]
  | cons e es ih =>
      obtain ⟨name, perms⟩ := e
      rw [scanEntries]
      simp only [List.mem_cons, exists_eq_or_imp]
      by_cases hq : q ∈ perms
      · rw [if_neg (not_not.mpr hq)]
        by_cases hopen : name = openRingName
        · simp [hopen, hq]
        · rw [if_neg hopen]
          have hlive := mem_and_not_expired_iff inner (name, p) now
          cases hr : inner.rings[name]? with
          | none =>
              have hm : p ∉ inner.members name := by simp [members, hr]
              simp only [hopen, ← hlive, hm, false_and, or_self, and_false, false_or]
              exact ih
          | some ms =>
              rw [members_of_get hr] at hlive
              simp only [hopen, hq, ← hlive, true_and, false_or]
              split
              · rename_i hmem
                exact iff_of_true rfl (.inl hmem)
              · rename_i hmem
                rw [ih, or_iff_right hmem]
      · rw [if_pos hq, ih]
        simp [hq]

variable [EndpointKeys]

/-- **The rings**, each listed once. -/
theorem WellFormed.listRings_spec (h : inner.WellFormed) (env : Env) :
    ∃ listed : List Ring, inner.listRings env = .ok listed ∧ listed.Nodup ∧
      ∀ ring, ring ∈ listed ↔ ring.name ∈ inner.rings := by
  have hperm := env.order.perm inner.rings.keys
  have hmem : ∀ r, r ∈ env.order.iter inner.rings.keys ↔ r ∈ inner.rings := fun r => by
    rw [hperm.mem_iff, Std.ExtTreeMap.mem_keys]
  obtain ⟨rings, hok, hnodup, hlisted⟩ := Ring.mapM_newExpect_filter
    "invariant: ring names are always valid" (hperm.nodup_iff.mpr Std.ExtTreeMap.nodup_keys)
    (fun r hr => h.names r ((hmem r).mp hr)) ((hmem _).mpr h.openRing)
  refine ⟨Ring.newOpen :: rings, ?_, hnodup, fun ring => (hlisted ring).trans (hmem _)⟩
  simp only [listRings, hok]
  rfl

/-- The listing of a ring, entry by entry: the members that have not expired. -/
theorem WellFormed.listRingPeers_eq (h : inner.WellFormed) (env : Env) {r : String}
    {ms : List PeerBytes} (hr : inner.rings[r]? = some ms) :
    ∃ listed : List RingMember, inner.listRingPeers env r = .ok listed ∧
      listed.map RingMember.shown = (ms.filter fun b => ¬ inner.isExpired r b env.now).map
        fun b => (b, inner.labels[(r, b)]?, inner.expiries[(r, b)]?) := by
  simp only [listRingPeers, hr]
  refine Outcome.mapM_eq_ok RingMember.shown fun b hb => ?_
  have hkey : EndpointKeys.isKey b = true :=
    h.keys r b (by rw [members_of_get hr]; exact (List.mem_filter.mp hb).1)
  refine ⟨⟨⟨b, hkey⟩, inner.labels[(r, b)]?, inner.expiries[(r, b)]?⟩, ?_, rfl⟩
  rw [decodeEndpointId_asBytes ⟨b, hkey⟩]
  rfl

/-- **A ring's listing is its live leases**, each peer once. -/
theorem WellFormed.listRingPeers_spec (h : inner.WellFormed) (env : Env) {r : String}
    (hr : r ∈ inner.rings) :
    ∃ listed : List RingMember, inner.listRingPeers env r = .ok listed ∧
      (listed.map RingMember.peer).Nodup ∧
      ∀ m : RingMember, m ∈ listed ↔
        inner.leases.live env.now (r, m.peer.asBytes) = some ⟨m.label, m.expiresAt⟩ := by
  obtain ⟨ms, hms⟩ := Table.mem_iff.mp hr
  have hmembers := members_of_get hms
  obtain ⟨listed, hok, hmap⟩ := h.listRingPeers_eq env hms
  refine ⟨listed, hok, ?_, fun m => ?_⟩
  · -- the peers' bytes are members, and members are distinct
    have hbytes := congrArg (List.map Prod.fst) hmap
    rw [List.map_map, List.map_map] at hbytes
    refine List.Nodup.of_map EndpointId.asBytes ?_
    rw [List.map_map]
    show (listed.map (Prod.fst ∘ RingMember.shown)).Nodup
    rw [hbytes]
    exact (List.map_id _).symm ▸ (hmembers ▸ h.nodup r).filter _
  · rw [← List.mem_map_of_injective RingMember.shown_injective, hmap, live_leases, hmembers]
    simp only [List.mem_map, List.mem_filter, RingMember.shown, Prod.mk.injEq]
    refine ⟨fun hex => ?_, fun hlive => ?_⟩
    · rcases hex with ⟨b, ⟨hb, hlive⟩, rfl, hlabel, hexpiry⟩
      rw [if_pos ⟨hb, by simpa using hlive⟩, hlabel, hexpiry]
    · split at hlive
      · rename_i hmem
        obtain ⟨hlabel, hexpiry⟩ := Lease.mk.inj (Option.some.inj hlive)
        exact ⟨_, ⟨hmem.1, by simp [hmem.2]⟩, rfl, hlabel, hexpiry⟩
      · cases hlive

/-- A ring's listing shows the peers that have a live lease. -/
theorem WellFormed.peer_listed_iff (h : inner.WellFormed) (env : Env)
    {r : String} (hr : r ∈ inner.rings) :
    ∃ members : List RingMember, inner.listRingPeers env r = .ok members ∧
      ∀ p : EndpointId, p ∈ members.map RingMember.peer ↔
        (inner.leases.live env.now (r, p.asBytes)).isSome := by
  obtain ⟨members, hok, -, hmem⟩ := h.listRingPeers_spec env hr
  refine ⟨members, hok, fun p => ?_⟩
  rw [List.mem_map, Option.isSome_iff_exists]
  refine ⟨fun hex => ?_, fun hex => ?_⟩
  · rcases hex with ⟨m, hm, rfl⟩
    exact ⟨_, (hmem m).mp hm⟩
  · obtain ⟨l, hl⟩ := hex
    exact ⟨⟨p, l.label, l.expiry⟩, (hmem _).mpr hl, rfl⟩

/-- **Access**: some associated ring grants the permission, and it is the open
ring or has the peer as a live member. -/
theorem WellFormed.hasPermission_iff (h : inner.WellFormed) (env : Env) (p : EndpointId)
    (res : Bytes) (q : Permission) :
    inner.hasPermission env p res q = .ok true ↔
      ∃ r ps, inner.grants res r = some ps ∧ q ∈ ps ∧
        (r = openRingName ∨ (inner.leases.live env.now (r, p.asBytes)).isSome) := by
  simp only [h.grants_eq_some]
  unfold hasPermission
  cases hres : inner.resourceRings[res]? with
  | none => simp
  | some es =>
      have hempty : es.isEmpty = false := by simpa using (h.entries res es hres).ne_nil
      simp only [hempty, Bool.false_eq_true, if_false, Except.ok.injEq, Option.getD_some,
        scanEntries_iff, Prod.exists]

theorem hasPermission_ok (inner : Inner) (env : Env) (p : EndpointId) (res : Bytes)
    (q : Permission) : ∃ b, inner.hasPermission env p res q = .ok b := by
  unfold hasPermission
  split
  · exact ⟨_, rfl⟩
  · split
    · exact ⟨_, rfl⟩
    · exact ⟨_, rfl⟩

end Inner

end IrohRings
