import IrohRings.Backends.Histories

/-!
# IrohRings.Backends.Redb.TableInvariant

The five tables of a redb registry are consistent with each other in every
reachable state (`tablesOk_run`). Nothing is proved here about the writers one
by one: the tables hold the maps of a well-formed shadow, so each clause is a
clause of `Inner.WellFormed` seen through the encoding.
-/

namespace IrohRings

open Foundation

variable [EndpointKeys]

/-- The key of a per-membership row names a ring that exists and a peer that is
stored in its member list. -/
def RedbRegistry.NamesMember (db : RedbRegistry) (key : Bytes) : Prop :=
  ∃ r raw, ∃ p : EndpointId, key = memberKey r p ∧ db.rings[r]? = some raw ∧
    p.asBytes ∈ decodePeerIds raw

/-- The representation invariant of the redb tables. -/
structure RedbRegistry.TablesOk (db : RedbRegistry) : Prop where
  openRing : openRingName ∈ db.rings
  names : ∀ r ∈ db.rings, ∃ ring, Ring.new r = .ok ring
  members : ∀ (r : String) (raw : Bytes), db.rings[r]? = some raw → 32 ∣ raw.length ∧
    ∃ ps : List EndpointId, decodePeerIds raw = ps.map EndpointId.asBytes ∧ ps.Nodup
  labels : ∀ key ∈ db.labels, db.NamesMember key
  expiries : ∀ key ∈ db.expiries, db.NamesMember key
  resources : ∀ (res raw : Bytes), db.resourceRings[res]? = some raw → decodeRingNames raw ≠ [] ∧
    (decodeRingNames raw).Nodup ∧ ∀ r ∈ decodeRingNames raw, r ∈ db.rings
  /-- Every row is that of an association. -/
  noOrphan : ∀ key ∈ db.resourceRingPerms,
    ∃ res r, r ∈ db.ringNames res ∧ permKey res r = key
  /-- Every association has its row, and no other pair has one. -/
  rows : ∀ (res : Bytes) (r : String), res.length < 65536 →
    (permKey res r ∈ db.resourceRingPerms ↔ r ∈ db.ringNames res)
  bits : ∀ (res : Bytes) (r : String) (b : UInt8), r ∈ db.ringNames res →
    db.resourceRingPerms[permKey res r]? = some b →
    b ≠ 0 ∧ b ≤ 0b111 ∧ (r = openRingName → b = 0b001)

namespace Shadowed

variable {d : History × RedbRegistry} {inner : Inner}

/-- The encoded key of a member's row. -/
theorem namesMember_of_mem (h : Shadows inner d.2) {id : MemberId}
    (hmem : id.2 ∈ inner.members id.1) : d.2.NamesMember (memberKeyOfId id) := by
  obtain ⟨r, b⟩ := id
  have hkey := h.wellFormed.keys r b hmem
  obtain ⟨ms, hr, hb⟩ := Inner.exists_of_mem_members hmem
  exact ⟨r, encodePeerIds ms, ⟨b, hkey⟩, rfl, by rw [h.rep.get_ring, hr]; rfl, by simpa⟩

/-- The permissions of an association passed the validation. -/
theorem validate_of_grants (hwf : inner.WellFormed) {res : Bytes} {r : String}
    {ps : List Permission} (h : inner.grants res r = some ps) :
    validateRingPermissions r ps = .ok () :=
  (hwf.entry_ok (hwf.grants_eq_some.mp h)).2

theorem tablesOk (h : Shadowed d inner)
    (hperms : PermsRep inner.grants d.2.resourceRingPerms) : d.2.TablesOk := by
  have hwf := h.shadows.wellFormed
  have hrep := h.shadows.rep
  have hring : ∀ r, r ∈ d.2.rings ↔ r ∈ inner.rings := fun r =>
    hrep.rings.mem Function.injective_id
  refine ⟨(hring _).mpr hwf.openRing, ?_, ?_, ?_, ?_, ?_, ?_, ?_, ?_⟩
  · exact fun r hr => ⟨_, Ring.new_of_valid (hwf.names r ((hring r).mp hr))⟩
  · intro r raw hraw
    rw [hrep.get_ring, Option.map_eq_some_iff] at hraw
    obtain ⟨ms, hms, rfl⟩ := hraw
    have hnodup := Inner.members_of_get hms ▸ hwf.nodup r
    have hkeys := Inner.members_of_get hms ▸ hwf.keys r
    refine ⟨⟨ms.length, by rw [length_encodePeerIds, Nat.mul_comm]⟩,
      ms.attach.map fun b => ⟨b.1, hkeys b.1 b.2⟩, ?_, ?_⟩
    · rw [decodePeerIds_encodePeerIds, List.map_map]
      exact (List.attach_map_subtype_val ms).symm
    · refine List.Nodup.of_map EndpointId.asBytes ?_
      rw [List.map_map]
      exact (List.attach_map_subtype_val ms).symm ▸ hnodup
  · intro key hkey
    obtain ⟨id, rfl⟩ := hrep.labels.exists_key hkey
    exact namesMember_of_mem h.shadows
      (hwf.labels id ((hrep.labels.mem memberKeyOfId_injective).mp hkey))
  · intro key hkey
    obtain ⟨id, rfl⟩ := hrep.expiries.exists_key hkey
    exact namesMember_of_mem h.shadows
      (hwf.expiries id ((hrep.expiries.mem memberKeyOfId_injective).mp hkey))
  · intro res raw hraw
    have hnames := hrep.ringNames hwf res
    rw [RedbRegistry.ringNames, hraw, Option.map_some, Option.getD_some] at hnames
    rw [hrep.get_entries, Option.map_eq_some_iff] at hraw
    obtain ⟨es, hes, -⟩ := hraw
    have hok := hwf.entries res es hes
    rw [hnames, Inner.ringNames, hes, Option.getD_some]
    refine ⟨by simpa using hok.ne_nil, hok.nodup, fun r hr => ?_⟩
    obtain ⟨e, he, rfl⟩ := List.mem_map.mp hr
    exact (hring _).mpr (hok.exists_ring e he)
  · intro key hkey
    obtain ⟨bits, hbits⟩ := Table.mem_iff.mp hkey
    obtain ⟨res, r, ps, hps, rfl, -⟩ := (hperms.row key bits).mp hbits
    refine ⟨res, r, ?_, rfl⟩
    rw [hrep.ringNames hwf]
    exact Inner.mem_ringNames.mpr ⟨ps, hps⟩
  · intro res r hres
    rw [hrep.ringNames hwf, Inner.mem_ringNames]
    constructor
    · intro hkey
      obtain ⟨bits, hbits⟩ := Table.mem_iff.mp hkey
      obtain ⟨res', r', ps, hps, hsame, -⟩ := (hperms.row _ bits).mp hbits
      obtain ⟨rfl, rfl⟩ := permKey_injective (hperms.short _ _ _ hps) hres hsame
      exact ⟨ps, hps⟩
    · intro hex
      rcases hex with ⟨ps, hps⟩
      exact Table.mem_iff.mpr ⟨_, hperms.get hps⟩
  · intro res r b hr hb
    rw [hrep.ringNames hwf, Inner.mem_ringNames] at hr
    obtain ⟨ps, hps⟩ := hr
    obtain ⟨hne, hread⟩ := validateRingPermissions_eq_ok.mp (validate_of_grants hwf hps)
    rw [hperms.get hps] at hb
    obtain rfl := Option.some.inj hb
    exact ⟨permsToByte_ne_zero hne, permsToByte_le ps, fun hopen =>
      permsToByte_read hne (hread hopen)⟩

end Shadowed

/-- **The representation invariant**, in every state a redb registry can reach. -/
theorem tablesOk_run (events : List Event) (hid : ∀ e ∈ events, e.ShortId) :
    (Backend.run RedbRegistry events).2.TablesOk := by
  obtain ⟨inner, h, hperms⟩ := shadow_run_perms events hid
  exact h.tablesOk hperms

omit [EndpointKeys] in
theorem tablesOk_sampleRun :
    @RedbRegistry.TablesOk EndpointKeys.basePoint
      (@Backend.run EndpointKeys.basePoint RedbRegistry _ sampleRun).2 :=
  @tablesOk_run EndpointKeys.basePoint sampleRun
    (by simp [sampleRun, Event.ShortId, Call.ShortId])

end IrohRings
