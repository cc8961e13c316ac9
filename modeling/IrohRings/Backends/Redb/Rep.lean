import Mathlib.Data.List.Perm.Basic
import IrohRings.Backends.Redb
import IrohRings.Backends.Redb.CodecSound
import IrohRings.Backends.MemoryReads

/-!
# IrohRings.Backends.Redb.Rep

`Rep inner db`: the redb tables hold the maps of an in-memory registry, encoded.
The permission rows are not part of it; whether those can be trusted depends on
the length of resource ids, and is the subject of
`IrohRings.Backends.Redb.Permissions`.

Expiries are where the two backends differ: a stored expiry is clamped to the
UNIX epoch. `Comparable inner now` is the condition under which no comparison
with `now` can tell, so that below every redb operation is the in-memory one.
Eviction has a module of its own, `IrohRings.Backends.Redb.Eviction`.
-/

namespace IrohRings

open Foundation

/-! ### The representation -/

/-- The key of a membership in `LABELS` and `EXPIRIES`. -/
def memberKeyOfId (id : MemberId) : Bytes := memberKeyOf id.1 id.2

theorem memberKeyOfId_injective : Function.Injective memberKeyOfId := by
  rintro ⟨r, p⟩ ⟨r', p'⟩ h
  obtain ⟨rfl, rfl⟩ := memberKeyOf_inj.mp h
  rfl

/-- The tables of `db` hold the maps of `inner`. -/
structure Rep (inner : Inner) (db : RedbRegistry) : Prop where
  rings : Table.Image id encodePeerIds inner.rings db.rings
  labels : Table.Image memberKeyOfId id inner.labels db.labels
  expiries : Table.Image memberKeyOfId encodeExpiry inner.expiries db.expiries
  entries : Table.Image id (fun es => encodeRingNames (es.map Prod.fst)) inner.resourceRings
    db.resourceRings
  version : db.close.readVersion = currentVersion

/-- Clamping the recorded expiries to the epoch decides no comparison with
`now`: either `now` is past the epoch, or no recorded expiry is before it. -/
def Comparable (inner : Inner) (now : SystemTime) : Prop :=
  unixEpoch ≤ now ∨
    ∀ (key : MemberId) (t : SystemTime), inner.expiries[key]? = some t → unixEpoch ≤ t

theorem Comparable.clamp_le_iff {inner : Inner} {now : SystemTime} (h : Comparable inner now)
    {key : MemberId} {t : SystemTime} (ht : inner.expiries[key]? = some t) :
    clamp t ≤ now ↔ t ≤ now := by
  rcases h with hnow | hall
  · exact IrohRings.clamp_le_iff hnow
  · rw [clamp_of_le (hall key t ht)]

/-- An expiry that has not passed yet is stored as it is. -/
theorem Comparable.clamp_of_not_le {inner : Inner} {now : SystemTime}
    (h : Comparable inner now) {key : MemberId} {t : SystemTime}
    (ht : inner.expiries[key]? = some t) (hlate : ¬ t ≤ now) : clamp t = t := by
  rcases h with hnow | hall
  · exact clamp_of_le (hnow.trans (le_of_not_ge hlate))
  · exact clamp_of_le (hall key t ht)

namespace RedbRegistry

/-- The ring's member list has the peer. -/
def Stores (db : RedbRegistry) (r : String) (peer : PeerBytes) : Prop :=
  ∃ raw, db.rings[r]? = some raw ∧ peer ∈ decodePeerIds raw

/-- The permissions listed for an association are those whose bit is set in its row. -/
theorem mem_storedPerms_iff {db : RedbRegistry} {res : Bytes} {r : String} {q : Permission} :
    q ∈ db.storedPerms res r ↔ db.permBits res r &&& permissionBit q ≠ 0 := by
  unfold storedPerms permBits
  cases db.resourceRingPerms[permKey res r]? with
  | none => simp
  | some bits => exact mem_byteToPerms

variable [EndpointKeys]

/-- The ring lets the peer in at `now`: it has the peer as a member, and the
membership has not expired. -/
def LetsIn (db : RedbRegistry) (now : SystemTime) (p : EndpointId) (r : String) : Prop :=
  db.Stores r p.asBytes ∧ isExpired db.expiries r p now = .ok false

/-- The loop of `hasPermission` finds a ring whose row grants the permission and
that lets the peer in, if there is one; the open ring lets everyone in. -/
theorem scanNames_spec (db : RedbRegistry) {now : SystemTime} {p : EndpointId}
    (hexp : ∀ r, ∃ e, isExpired db.expiries r p now = .ok e) (res : Bytes) (q : Permission)
    (names : List String) :
    ∃ b, db.scanNames now p res q names = .ok b ∧
      (b = true ↔ ∃ r ∈ names, db.permBits res r &&& permissionBit q ≠ 0 ∧
        (r = openRingName ∨ db.LetsIn now p r)) := by
  induction names with
  | nil => exact ⟨false, rfl, by simp⟩
  | cons name names ih =>
      obtain ⟨b, hok, hb⟩ := ih
      rw [scanNames]
      simp only [List.mem_cons, exists_eq_or_imp]
      by_cases hbit : db.permBits res name &&& permissionBit q = 0
      · rw [if_pos hbit]
        exact ⟨b, hok, by rw [hb, or_iff_right fun h => h.1 hbit]⟩
      rw [if_neg hbit]
      by_cases hopen : name = openRingName
      · rw [if_pos hopen]
        exact ⟨true, rfl, iff_of_true rfl (.inl ⟨hbit, .inl hopen⟩)⟩
      rw [if_neg hopen]
      -- from here on the ring decides: it lets the peer in, or the loop goes on
      have hskip : ¬ db.LetsIn now p name → (b = true ↔
          (db.permBits res name &&& permissionBit q ≠ 0 ∧
            (name = openRingName ∨ db.LetsIn now p name)) ∨
          ∃ r ∈ names, db.permBits res r &&& permissionBit q ≠ 0 ∧
            (r = openRingName ∨ db.LetsIn now p r)) := by
        intro hnot
        rw [hb, or_iff_right fun h => h.2.elim hopen hnot]
      cases hring : db.rings[name]? with
      | none =>
          refine ⟨b, hok, hskip ?_⟩
          rintro ⟨⟨raw, hraw, -⟩, -⟩
          simp [hring] at hraw
      | some raw =>
          dsimp only
          by_cases hmem : p.asBytes ∈ decodePeerIds raw
          · rw [if_pos hmem]
            obtain ⟨expired, hexpired⟩ := hexp name
            rw [hexpired]
            cases expired with
            | false =>
                exact ⟨true, rfl, iff_of_true rfl
                  (.inl ⟨hbit, .inr ⟨⟨raw, hring, hmem⟩, hexpired⟩⟩)⟩
            | true =>
                refine ⟨b, hok, hskip fun hlets => ?_⟩
                cases hexpired.symm.trans hlets.2
          · rw [if_neg hmem]
            refine ⟨b, hok, hskip ?_⟩
            rintro ⟨⟨raw', hraw, hmem'⟩, -⟩
            obtain rfl := Option.some.inj (hring.symm.trans hraw)
            exact hmem hmem'

end RedbRegistry

namespace Rep

variable {inner : Inner} {db : RedbRegistry}

/-! ### Looking a row up

The keys are injective, so a lookup in a table is the lookup in the map, encoded. -/

theorem get_ring (h : Rep inner db) (r : String) :
    db.rings[r]? = inner.rings[r]?.map encodePeerIds :=
  h.rings.get Function.injective_id r

theorem get_label (h : Rep inner db) (r : String) (p : PeerBytes) :
    db.labels[memberKeyOf r p]? = inner.labels[(r, p)]? := by
  have := h.labels.get memberKeyOfId_injective (r, p)
  rwa [Option.map_id] at this

theorem get_expiry (h : Rep inner db) (r : String) (p : PeerBytes) :
    db.expiries[memberKeyOf r p]? = inner.expiries[(r, p)]?.map encodeExpiry :=
  h.expiries.get memberKeyOfId_injective (r, p)

theorem get_entries (h : Rep inner db) (res : Bytes) :
    db.resourceRings[res]? =
      inner.resourceRings[res]?.map fun es => encodeRingNames (es.map Prod.fst) :=
  h.entries.get Function.injective_id res

/-! ### Writing a row

The same updates on both sides keep the representation; these are the ones the
operations are made of. -/

theorem insertRing (h : Rep inner db) (r : String) (ms : List PeerBytes) :
    Rep { inner with rings := inner.rings.insert r ms }
      { db with rings := db.rings.insert r (encodePeerIds ms) } :=
  ⟨h.rings.insert Function.injective_id r ms, h.labels, h.expiries, h.entries, h.version⟩

theorem clear (h : Rep inner db) (key : MemberId) :
    Rep (inner.clear key) (db.clear (memberKeyOfId key)) :=
  ⟨h.rings, h.labels.erase memberKeyOfId_injective key,
    h.expiries.erase memberKeyOfId_injective key, h.entries, h.version⟩

theorem annotate (h : Rep inner db) (key : MemberId) (label : Option String)
    (expiresAt : Option SystemTime) :
    Rep (inner.annotate key label expiresAt)
      (db.annotate (memberKeyOfId key) label expiresAt) := by
  have hlabels : ∀ lbl, Table.Image memberKeyOfId id (inner.labels.insert key lbl)
      (db.labels.insert (memberKeyOfId key) lbl) := fun lbl =>
    h.labels.insert memberKeyOfId_injective key lbl
  have hexpiries := fun t => h.expiries.insert memberKeyOfId_injective key t
  cases label with
  | none =>
      cases expiresAt with
      | none => exact h
      | some t => exact ⟨h.rings, h.labels, hexpiries t, h.entries, h.version⟩
  | some lbl =>
      cases expiresAt with
      | none => exact ⟨h.rings, hlabels lbl, h.expiries, h.entries, h.version⟩
      | some t => exact ⟨h.rings, hlabels lbl, hexpiries t, h.entries, h.version⟩

/-! ### Rings and members

From here on each operation is taken once through both sources, branch by branch: it
has the same outcome on both sides, and the representation holds after it. Where an
operation compares an expiry with the clock, `Comparable` says that clamping the expiry
makes no difference. -/

theorem createRing (h : Rep inner db) (r : String) :
    (db.createRing r).1 = (inner.createRing r).1 ∧
      Rep (inner.createRing r).2 (db.createRing r).2 := by
  unfold RedbRegistry.createRing Inner.createRing
  have hring : db.rings[r]?.isSome = inner.rings.contains r := by
    rw [h.get_ring, Option.isSome_map, Std.ExtTreeMap.isSome_getElem?_eq_contains]
  cases Ring.new r with
  | error e => exact ⟨rfl, h⟩
  | ok ring =>
      dsimp only
      split
      · exact ⟨rfl, h⟩
      · rw [hring]
        cases inner.rings.contains r with
        | true => exact ⟨rfl, h⟩
        | false => exact ⟨rfl, h.insertRing r []⟩

theorem removeRingFromResource (h : Rep inner db) (res : Bytes) :
    (db.removeRingFromResource res).1 = (inner.removeRingFromResource res).1 ∧
      Rep (inner.removeRingFromResource res).2 (db.removeRingFromResource res).2 :=
  ⟨rfl, h.rings, h.labels, h.expiries, h.entries.erase Function.injective_id res, h.version⟩

theorem readMembers (h : Rep inner db) (r : String) :
    db.readMembers r =
      match inner.rings[r]? with
      | some ms => .ok ms
      | none => .err (.ringNotFound r) := by
  rw [RedbRegistry.readMembers, h.get_ring]
  cases inner.rings[r]? with
  | none => rfl
  | some ms => simp

/-- The clamped expiry has passed exactly when the membership has expired. -/
theorem any_clamp {now : SystemTime} (hcmp : Comparable inner now) (r : String)
    (p : PeerBytes) :
    (inner.expiries[(r, p)]?.map clamp).any (· ≤ now) = inner.isExpired r p now := by
  rw [Inner.isExpired]
  cases ht : inner.expiries[(r, p)]? with
  | none => rfl
  | some t => simp [hcmp.clamp_le_iff ht]

variable [EndpointKeys]

theorem readExpiry (h : Rep inner db) (r : String) (p : EndpointId) :
    RedbRegistry.readExpiry db.expiries (memberKey r p) =
      .ok (inner.expiries[(r, p.asBytes)]?.map clamp) := by
  rw [RedbRegistry.readExpiry, memberKey_eq, h.get_expiry]
  cases inner.expiries[(r, p.asBytes)]? with
  | none => rfl
  | some t => simp [Except.map]

theorem isExpired (h : Rep inner db) {now : SystemTime} (hcmp : Comparable inner now)
    (r : String) (p : EndpointId) :
    RedbRegistry.isExpired db.expiries r p now = .ok (inner.isExpired r p.asBytes now) := by
  rw [RedbRegistry.isExpired, h.readExpiry, ← any_clamp hcmp]
  rfl

theorem addPeerToRing (h : Rep inner db) {env : Env} (hcmp : Comparable inner env.now)
    (r : String) (p : EndpointId) (label : Option String) (expiresAt : Option SystemTime) :
    (db.addPeerToRing env r p label expiresAt).1 =
        (inner.addPeerToRing env r p label expiresAt).1 ∧
      Rep (inner.addPeerToRing env r p label expiresAt).2
        (db.addPeerToRing env r p label expiresAt).2 := by
  unfold RedbRegistry.addPeerToRing Inner.addPeerToRing
  rw [h.readMembers]
  cases hr : inner.rings[r]? with
  | none => exact ⟨rfl, h⟩
  | some ms =>
      simp only [Inner.enroll, bind, Except.bind, h.isExpired hcmp]
      by_cases hp : p.asBytes ∈ ms
      · simp only [hp, not_true_eq_false, if_false]
        cases inner.isExpired r p.asBytes env.now with
        | true => exact ⟨rfl, (h.clear (r, p.asBytes)).annotate (r, p.asBytes) label expiresAt⟩
        | false => exact ⟨rfl, h.annotate (r, p.asBytes) label expiresAt⟩
      · simp only [hp, not_false_eq_true, if_true]
        exact ⟨rfl, (h.insertRing r _).annotate (r, p.asBytes) label expiresAt⟩

theorem removePeerFromRing (h : Rep inner db) (r : String) (p : EndpointId) :
    (db.removePeerFromRing r p).1 = (inner.removePeerFromRing r p).1 ∧
      Rep (inner.removePeerFromRing r p).2 (db.removePeerFromRing r p).2 := by
  unfold RedbRegistry.removePeerFromRing Inner.removePeerFromRing
  rw [h.readMembers]
  cases hr : inner.rings[r]? with
  | none => exact ⟨rfl, h⟩
  | some ms => exact ⟨rfl, (h.insertRing r _).clear (r, p.asBytes)⟩

/-- Reading a member list row by row reads the live members, one after the other. -/
theorem listPeers (h : Rep inner db) {now : SystemTime} (hcmp : Comparable inner now)
    {r : String} {entry : PeerBytes → Outcome RingMember}
    (hentry : ∀ p : EndpointId, entry p.asBytes =
      .ok ⟨p, inner.labels[(r, p.asBytes)]?, inner.expiries[(r, p.asBytes)]?⟩)
    {ms : List PeerBytes} (hkeys : ∀ b ∈ ms, EndpointKeys.isKey b = true) :
    db.listPeers now r ms = (ms.filter fun b => ¬ inner.isExpired r b now).mapM entry := by
  induction ms with
  | nil => rfl
  | cons b ms ih =>
      obtain ⟨p, rfl⟩ : ∃ p : EndpointId, p.asBytes = b := ⟨⟨b, hkeys b (by simp)⟩, rfl⟩
      rw [RedbRegistry.listPeers, ih fun b hb => hkeys b (by simp [hb])]
      simp only [decodeEndpointId_asBytes, bind, Except.bind, h.readExpiry]
      simp only [any_clamp hcmp, memberKey_eq, h.get_label]
      generalize hrest : List.mapM entry (ms.filter _) = rest
      cases he : inner.isExpired r p.asBytes now with
      | true =>
          simp only [he, if_true, not_true_eq_false, decide_false, Bool.false_eq_true,
            not_false_eq_true, List.filter_cons_of_neg, hrest]
          cases rest <;> rfl
      | false =>
          -- listed memberships are not expired, and their expiries are stored as they are
          have hexp : inner.expiries[(r, p.asBytes)]?.map clamp =
              inner.expiries[(r, p.asBytes)]? := by
            cases ht : inner.expiries[(r, p.asBytes)]? with
            | none => rfl
            | some t =>
                rw [Option.map_some, hcmp.clamp_of_not_le ht]
                simpa [Inner.isExpired, ht] using he
          simp only [he, hexp, Bool.false_eq_true, if_false, not_false_eq_true, decide_true,
            List.filter_cons_of_pos, List.mapM_cons, bind, Except.bind, hentry, hrest]

theorem listRingPeers (h : Rep inner db) (hwf : inner.WellFormed) {env : Env}
    (hcmp : Comparable inner env.now) (r : String) :
    db.listRingPeers env r = inner.listRingPeers env r := by
  unfold RedbRegistry.listRingPeers Inner.listRingPeers
  rw [h.readMembers]
  cases hr : inner.rings[r]? with
  | none => rfl
  | some ms =>
      refine h.listPeers hcmp (fun p => ?_) fun b hb =>
        hwf.keys r b (Inner.members_of_get hr ▸ hb)
      rw [decodeEndpointId_asBytes]
      rfl

/-- The rings, each listed once. -/
theorem listRings (h : Rep inner db) (hwf : inner.WellFormed) (env : Env) :
    ∃ listed : List Ring, db.listRings env = .ok listed ∧ listed.Nodup ∧
      ∀ ring, ring ∈ listed ↔ ring.name ∈ inner.rings := by
  have hmem : ∀ r, r ∈ db.rings.keys ↔ r ∈ inner.rings := fun r =>
    Std.ExtTreeMap.mem_keys.trans (h.rings.mem Function.injective_id)
  obtain ⟨rings, hok, hnodup, hlisted⟩ := Ring.mapM_newExpect_filter
    "invariant: db ring names are always valid" Std.ExtTreeMap.nodup_keys
    (fun r hr => hwf.names r ((hmem r).mp hr)) ((hmem _).mpr hwf.openRing)
  refine ⟨Ring.newOpen :: rings, ?_, hnodup, fun ring => (hlisted ring).trans (hmem _)⟩
  simp only [RedbRegistry.listRings, hok]
  rfl

/-! ### Associations

The names of the associated rings are stored joined by a separator, which no valid name
contains; that is why reading them back takes a well-formed registry. -/

theorem ringNames (h : Rep inner db) (hwf : inner.WellFormed) (res : Bytes) :
    db.ringNames res = inner.ringNames res := by
  rw [RedbRegistry.ringNames, Inner.ringNames, h.get_entries]
  cases hes : inner.resourceRings[res]? with
  | none => rfl
  | some es =>
      have hvalid : ∀ name ∈ es.map Prod.fst, ValidName name := by
        intro name hname
        obtain ⟨e, he, rfl⟩ := List.mem_map.mp hname
        exact hwf.names _ ((hwf.entries res es hes).exists_ring e he)
      simp [decodeRingNames_encodeRingNames hvalid]

theorem addRingToResource (h : Rep inner db) (hwf : inner.WellFormed) (res : Bytes)
    (r : String) (ps : List Permission) :
    (db.addRingToResource res r ps).1 = (inner.addRingToResource res r ps).1 ∧
      Rep (inner.addRingToResource res r ps).2 (db.addRingToResource res r ps).2 := by
  unfold RedbRegistry.addRingToResource Inner.addRingToResource
  cases validateRingPermissions r ps with
  | error e => exact ⟨rfl, h⟩
  | ok _ =>
      have hring : db.rings[r]?.isNone = !inner.rings.contains r := by
        rw [h.get_ring, Option.isNone_map, ← Std.ExtTreeMap.isSome_getElem?_eq_contains,
          Option.not_isSome]
      dsimp only
      rw [hring]
      cases inner.rings.contains r with
      | false => exact ⟨rfl, h⟩
      | true =>
          refine ⟨rfl, h.rings, h.labels, h.expiries, ?_, h.version⟩
          -- the names alone are stored, and they do not depend on the permissions read back
          have hnames : (computeResourceRings ((db.ringNames res).map fun name =>
              (name, db.storedPerms res name)) r ps).map Prod.fst =
              (computeResourceRings (inner.resourceRings[res]?.getD []) r ps).map Prod.fst := by
            have hid : (Prod.fst ∘ fun name => (name, db.storedPerms res name)) = id := rfl
            rw [map_fst_computeResourceRings, map_fst_computeResourceRings, List.map_map,
              h.ringNames hwf, hid, List.map_id, Inner.ringNames]
          have hinsert := h.entries.insert Function.injective_id res
            (computeResourceRings (inner.resourceRings[res]?.getD []) r ps)
          simp only [hnames]
          exact hinsert

theorem listResourceRings (h : Rep inner db) (hwf : inner.WellFormed) (res : Bytes) :
    ∃ listed : List (Ring × List Permission), db.listResourceRings res = .ok listed ∧
      listed.map (fun e => (e.1.name, e.2)) =
        (inner.ringNames res).map fun name => (name, db.storedPerms res name) := by
  rw [RedbRegistry.listResourceRings, h.ringNames hwf]
  refine Outcome.mapM_eq_ok _ fun name hname => ?_
  exact ⟨(⟨name, hwf.validName_ringNames hname⟩, db.storedPerms res name),
    by rw [Ring.newExpect_of_valid (hwf.validName_ringNames hname)]; rfl, rfl⟩

/-- A membership that has not expired is a live lease. -/
theorem letsIn_iff (h : Rep inner db) {now : SystemTime} (hcmp : Comparable inner now)
    (r : String) (p : EndpointId) :
    db.LetsIn now p r ↔ (inner.leases.live now (r, p.asBytes)).isSome := by
  rw [RedbRegistry.LetsIn, RedbRegistry.Stores, h.get_ring, h.isExpired hcmp,
    ← Inner.mem_and_not_expired_iff inner (r, p.asBytes) now, Except.ok.injEq, Bool.not_eq_true]
  cases hr : inner.rings[r]? with
  | none => simp [Inner.members, hr]
  | some ms => simp [Inner.members, hr]

theorem hasPermission_eq_scanNames (db : RedbRegistry) (env : Env)
    (p : EndpointId) (res : Bytes) (q : Permission) :
    db.hasPermission env p res q = db.scanNames env.now p res q (db.ringNames res) := by
  rw [RedbRegistry.hasPermission, RedbRegistry.ringNames]
  cases db.resourceRings[res]? with
  | none => rfl
  | some raw =>
      cases hnames : decodeRingNames raw with
      | nil => simp [hnames, RedbRegistry.scanNames]
      | cons name names => simp [hnames]

/-- **Access in redb**: some associated ring whose row grants the permission is
the open ring, or has the peer as a live member. -/
theorem hasPermission (h : Rep inner db) (hwf : inner.WellFormed) {env : Env}
    (hcmp : Comparable inner env.now) (p : EndpointId) (res : Bytes) (q : Permission) :
    ∃ b, db.hasPermission env p res q = .ok b ∧
      (b = true ↔ ∃ r ∈ inner.ringNames res, db.permBits res r &&& permissionBit q ≠ 0 ∧
        (r = openRingName ∨ (inner.leases.live env.now (r, p.asBytes)).isSome)) := by
  rw [hasPermission_eq_scanNames, h.ringNames hwf]
  obtain ⟨b, hb, hiff⟩ := db.scanNames_spec (fun r => ⟨_, h.isExpired hcmp r p⟩) res q
    (inner.ringNames res)
  simp only [h.letsIn_iff hcmp] at hiff
  exact ⟨b, hb, hiff⟩

end Rep

end IrohRings
