import IrohRings.Backends.Histories

/-!
# IrohRings.Backends.Listings

The access decision and the listings never disagree. `hasPermission` scans raw
member lists and tests bits, the listings decode members and permission sets, and
each looks at expiries in a place of its own; still, whoever an operator sees
listed has access, and nobody else does (`access_agrees_with_listings`).

The permission rows are read by both sides through the same key, so no bound on the
length of resource ids is needed here: where two associations share a row, the
listing and the decision are wrong together.
-/

namespace IrohRings

open Foundation

variable [EndpointKeys] {σ : Type} [Registry σ]

/-! ### What an operator reads off the listings -/

/-- The listing of the ring answers, and shows the peer. -/
def PeerListed (env : Env) (s : σ) (r : String) (p : EndpointId) : Prop :=
  ∃ members, Registry.listRingPeers env s r = .ok members ∧ p ∈ members.map RingMember.peer

/-- An entry of the resource's listing grants the permission, and its ring is the
open one or lists the peer. -/
def AccessListed (env : Env) (s : σ) (listed : List (Ring × List Permission)) (p : EndpointId)
    (q : Permission) : Prop :=
  ∃ e ∈ listed, q ∈ e.2 ∧ (e.1.name = openRingName ∨ PeerListed env s e.1.name p)

/-- The access decisions about a resource are those its listing shows, and no call
fails for a ring that is listed. -/
structure AgreesWithListing (env : Env) (s : σ) (res : Bytes)
    (listed : List (Ring × List Permission)) : Prop where
  ok : Registry.listResourceRings s res = .ok listed
  peers : ∀ e ∈ listed, ∃ members, Registry.listRingPeers env s e.1.name = .ok members
  rings : ∃ rings, Registry.listRings env s = .ok rings ∧
    ∀ ring ∈ rings, ∃ members, Registry.listRingPeers env s ring.name = .ok members
  decides : ∀ p q, ∃ b, Registry.hasPermission env s p res q = .ok b ∧
    (b = true ↔ AccessListed env s listed p q)

/-! ### Agreement through the leases -/

/-- A registry that lists peers as a well-formed in-memory one does, and grants what
the listed entries and the live leases grant, agrees with its listing. -/
theorem AgreesWithListing.of_leases {env : Env} {s : σ} {res : Bytes}
    {listed : List (Ring × List Permission)} {inner : Inner} (hwf : inner.WellFormed)
    (hpeers : ∀ r, Registry.listRingPeers env s r = inner.listRingPeers env r)
    (hlisted : Registry.listResourceRings s res = .ok listed)
    (hnames : ∀ e ∈ listed, e.1.name ∈ inner.rings)
    (hrings : ∃ rings, Registry.listRings env s = .ok rings ∧
      ∀ ring ∈ rings, ring.name ∈ inner.rings)
    (hdecides : ∀ p q, ∃ b, Registry.hasPermission env s p res q = .ok b ∧
      (b = true ↔ ∃ e ∈ listed, q ∈ e.2 ∧ (e.1.name = openRingName ∨
        (inner.leases.live env.now (e.1.name, p.asBytes)).isSome))) :
    AgreesWithListing env s res listed := by
  have hring : ∀ r ∈ inner.rings, ∃ members, Registry.listRingPeers env s r = .ok members ∧
      ∀ p : EndpointId, p ∈ members.map RingMember.peer ↔
        (inner.leases.live env.now (r, p.asBytes)).isSome := by
    intro r hr
    rw [hpeers]
    exact hwf.peer_listed_iff env hr
  obtain ⟨rings, hok, hrings⟩ := hrings
  refine ⟨hlisted, fun e he => ?_, ⟨rings, hok, fun ring hmem => ?_⟩, fun p q => ?_⟩
  · obtain ⟨members, hmembers, -⟩ := hring _ (hnames e he)
    exact ⟨members, hmembers⟩
  · obtain ⟨members, hmembers, -⟩ := hring _ (hrings ring hmem)
    exact ⟨members, hmembers⟩
  · obtain ⟨b, hok, hb⟩ := hdecides p q
    refine ⟨b, hok, hb.trans (exists_congr fun e => and_congr_right fun he => ?_)⟩
    refine and_congr_right fun _ => or_congr_right ?_
    -- the ring of a listed entry lists its live leases
    obtain ⟨members, hmembers, hmem⟩ := hring _ (hnames e he)
    rw [← hmem p]
    constructor
    · exact fun hp => ⟨members, hmembers, hp⟩
    · intro hex
      obtain ⟨members', hmembers', hp⟩ := hex
      obtain rfl := Except.ok.inj (hmembers.symm.trans hmembers')
      exact hp

/-! ### The two backends -/

omit [EndpointKeys] in
/-- What is said of some stored entry is said of some listed one. -/
theorem exists_listed_iff {listed : List (Ring × List Permission)}
    {es : List (String × List Permission)} (h : listed.map (fun e => (e.1.name, e.2)) = es)
    (P : String → List Permission → Prop) :
    (∃ e ∈ es, P e.1 e.2) ↔ ∃ e ∈ listed, P e.1.name e.2 := by
  subst h
  simp only [List.mem_map, exists_exists_and_eq_and]

theorem Inner.WellFormed.agreesWithListing {inner : Inner} (h : inner.WellFormed) (env : Env)
    (res : Bytes) : ∃ listed, AgreesWithListing env inner res listed := by
  obtain ⟨listed, hok, hmap⟩ := h.listResourceRings_eq res
  obtain ⟨rings, hrings, -, hring⟩ := h.listRings_spec env
  refine ⟨listed, .of_leases h (fun r => rfl) hok (fun e he => ?_)
    ⟨rings, hrings, fun ring => (hring ring).mp⟩ fun p q => ?_⟩
  · have hname : e.1.name ∈ inner.ringNames res := by
      rw [ringNames, ← hmap, List.map_map]
      exact List.mem_map.mpr ⟨e, he, rfl⟩
    exact h.mem_rings_of_ringNames hname
  · obtain ⟨b, hb⟩ := inner.hasPermission_ok env p res q
    refine ⟨b, hb, ?_⟩
    have hiff := h.hasPermission_iff env p res q
    rw [hb, Except.ok.injEq] at hiff
    rw [hiff, ← exists_listed_iff hmap fun r ps => q ∈ ps ∧ (r = openRingName ∨
      (inner.leases.live env.now (r, p.asBytes)).isSome)]
    simp only [h.grants_eq_some, Prod.exists]

theorem Shadows.agreesWithListing {inner : Inner} {db : RedbRegistry} (h : Shadows inner db)
    (env : Env) (res : Bytes) : ∃ listed, AgreesWithListing env db res listed := by
  have hcmp := h.comparable env.now
  obtain ⟨listed, hok, hmap⟩ := h.rep.listResourceRings h.wellFormed res
  obtain ⟨rings, hrings, -, hring⟩ := h.rep.listRings h.wellFormed env
  refine ⟨listed, .of_leases h.wellFormed (h.rep.listRingPeers h.wellFormed hcmp) hok
    (fun e he => ?_) ⟨rings, hrings, fun ring => (hring ring).mp⟩ fun p q => ?_⟩
  · have hname : (e.1.name, e.2) ∈ (inner.ringNames res).map fun r => (r, db.storedPerms res r) :=
      hmap ▸ List.mem_map.mpr ⟨e, he, rfl⟩
    obtain ⟨r, hr, heq⟩ := List.mem_map.mp hname
    obtain ⟨rfl, -⟩ := Prod.mk.inj heq
    exact h.wellFormed.mem_rings_of_ringNames hr
  · obtain ⟨b, hb, hiff⟩ := h.rep.hasPermission h.wellFormed hcmp p res q
    refine ⟨b, hb, ?_⟩
    rw [hiff, ← exists_listed_iff hmap fun r ps => q ∈ ps ∧ (r = openRingName ∨
      (inner.leases.live env.now (r, p.asBytes)).isSome)]
    -- one side tests the stored bit, the other looks the permission up in the decoded set
    simp only [List.mem_map, exists_exists_and_eq_and, RedbRegistry.mem_storedPerms_iff]

/-- **The access decision and the listings never disagree**, in any state of either
backend: whoever is listed has access, and nobody else does. -/
theorem access_agrees_with_listings (events : List Event) (env : Env) (res : Bytes) :
    (∃ listed, AgreesWithListing env (Backend.run Inner events).2 res listed) ∧
      ∃ listed, AgreesWithListing env (Backend.run RedbRegistry events).2 res listed := by
  constructor
  · exact (Inner.traces_run events).wellFormed.agreesWithListing env res
  · obtain ⟨inner, h⟩ := shadow_run events
    exact h.shadows.agreesWithListing env res

end IrohRings
