import Mathlib.Data.List.Forall2
import IrohRings.Backends.Redb.Simulation

/-!
# IrohRings.Backends.Redb.Permissions

The permission rows, and what is left of them when resource ids are longer than
a `u16` can count.

`PermsRep grants rows` says that the rows are exactly the granted associations.
It needs every associated resource id to be shorter than 65536 bytes, because
only then do different associations have different rows (`permKey_injective`).
Under it redb answers the two calls that read permissions as the in-memory
backend does, which completes the simulation (`Rep.agree`).
-/

namespace IrohRings

open Foundation

/-! ### Associations and grants -/

namespace Inner

theorem mem_ringNames {inner : Inner} {res : Bytes} {r : String} :
    r ∈ inner.ringNames res ↔ ∃ ps, inner.grants res r = some ps := by
  rw [ringNames, grants, ← Option.isSome_iff_exists]
  induction inner.resourceRings[res]?.getD [] with
  | nil => simp
  | cons e es ih =>
      rw [List.map_cons, List.mem_cons, List.lookup_cons, ih]
      by_cases hr : r = e.1
      · simp [hr]
      · simp [hr, beq_eq_false_iff_ne.mpr hr]

end Inner

/-! ### The rows of short resource ids -/

/-- The granted associations have short resource ids, and the permission rows
are exactly theirs. -/
structure PermsRep (grants : Bytes → String → Option (List Permission))
    (rows : Table Bytes UInt8) : Prop where
  short : ∀ res r ps, grants res r = some ps → res.length < 65536
  row : ∀ key bits, rows[key]? = some bits ↔
    ∃ res r ps, grants res r = some ps ∧ permKey res r = key ∧ permsToByte ps = bits

namespace PermsRep

variable {grants : Bytes → String → Option (List Permission)} {rows : Table Bytes UInt8}

theorem fresh : PermsRep (fun _ _ => none) (∅ : Table Bytes UInt8) :=
  ⟨nofun, by simp⟩

theorem get (h : PermsRep grants rows) {res : Bytes} {r : String} {ps : List Permission}
    (hps : grants res r = some ps) : rows[permKey res r]? = some (permsToByte ps) :=
  (h.row _ _).mpr ⟨res, r, ps, hps, rfl, rfl⟩

/-- A successful `addRingToResource` writes the row of its own association. -/
theorem insert (h : PermsRep grants rows) {res : Bytes} (hres : res.length < 65536)
    (r : String) (ps : List Permission) :
    PermsRep (Function.update grants res (Function.update (grants res) r (some ps)))
      (rows.insert (permKey res r) (permsToByte ps)) := by
  -- short ids on both sides are what makes the key injective below
  have hshort : ∀ res' r' ps', Function.update grants res (Function.update (grants res) r
      (some ps)) res' r' = some ps' → res'.length < 65536 := by
    intro res' r' ps' h'
    rw [update_grants] at h'
    split at h'
    · rename_i hid
      exact hid.1 ▸ hres
    · exact h.short res' r' ps' h'
  refine ⟨hshort, fun key bits => ?_⟩
  rw [Table.get_insert]
  split
  · rename_i hkey
    constructor
    · intro hold
      cases hold
      exact ⟨res, r, ps, by simp, hkey.symm, rfl⟩
    · intro hex
      rcases hex with ⟨res', r', ps', hps', hkey', rfl⟩
      obtain ⟨rfl, rfl⟩ := permKey_injective (hshort _ _ _ hps') hres (hkey'.trans hkey)
      rw [update_grants, if_pos ⟨rfl, rfl⟩] at hps'
      rw [Option.some.inj hps']
  · rename_i hkey
    rw [h.row]
    refine exists_congr fun res' => exists_congr fun r' => exists_congr fun ps' =>
      and_congr_left fun hid => ?_
    rw [update_grants, if_neg]
    intro hand
    rcases hand with ⟨rfl, rfl⟩
    exact hkey hid.1.symm

/-- `removeRingFromResource` deletes the rows of the resource's associations and
no others. -/
theorem erase (h : PermsRep grants rows) {res : Bytes} {names : List String}
    (hnames : ∀ r, r ∈ names ↔ ∃ ps, grants res r = some ps) :
    PermsRep (Function.update grants res fun _ => none)
      (names.foldl (fun rows r => rows.erase (permKey res r)) rows) := by
  have hupdate : ∀ {res' r' ps'}, Function.update grants res (fun _ => none) res' r' = some ps' ↔
      res' ≠ res ∧ grants res' r' = some ps' := by
    intro res' r' ps'
    rw [update_grants_none]
    split <;> simp [*]
  refine ⟨fun res' r' ps' h' => h.short res' r' ps' (hupdate.mp h').2,
    fun key bits => ?_⟩
  rw [Table.get_foldl_erase]
  split
  · rename_i hkey
    obtain ⟨r, hr, rfl⟩ := List.mem_map.mp hkey
    obtain ⟨ps, hps⟩ := (hnames r).mp hr
    constructor
    · nofun
    · intro hex
      rcases hex with ⟨res', r', ps', hps', hkey', -⟩
      -- a row that was deleted can only have been that of an association of `res`
      obtain ⟨hne, hps'⟩ := hupdate.mp hps'
      exact absurd (permKey_injective (h.short _ _ _ hps') (h.short _ _ _ hps) hkey').1 hne
  · rename_i hkey
    rw [h.row]
    refine exists_congr fun res' => exists_congr fun r' => exists_congr fun ps' =>
      and_congr_left fun hid => ?_
    rw [hupdate]
    refine ⟨fun hps' => ⟨?_, hps'⟩, And.right⟩
    intro heq
    subst heq
    exact hkey (List.mem_map.mpr ⟨r', (hnames r').mpr ⟨ps', hps'⟩, hid.1⟩)

end PermsRep

variable [EndpointKeys]

/-- An association is only made for a resource id that a `u16` can count the
bytes of. -/
def Call.ShortId : Call → Prop
  | .addRingToResource res _ _ => res.length < 65536
  | _ => True

/-- The resource id of an association the call made is short. -/
theorem Call.ShortId.of_effect {c : Call} (hid : c.ShortId) {env : Env} {a : Answer}
    {res : Bytes} {r : String} {ps : List Permission}
    (he : Record.effect ⟨env, c, a⟩ = .associated res r ps) : res.length < 65536 := by
  obtain ⟨-, rfl⟩ := Record.of_associated he
  exact hid

/-- An effect changes the rows along with the grants. -/
theorem PermsRep.step {inner : Inner} {rows : Table Bytes UInt8}
    (h : PermsRep inner.grants rows) {e : Effect}
    (he : ∀ res r ps, e = .associated res r ps → res.length < 65536) :
    PermsRep (e.onGrants inner.grants) (e.onRows inner.ringNames rows) := by
  cases e with
  | associated res r ps => exact h.insert (he res r ps rfl) r ps
  | dissociated res => exact h.erase fun r => Inner.mem_ringNames
  | created | admitted | removed | evicted | nothing => exact h

/-! ### The calls that read permissions -/

theorem Inner.WellFormed.listResourceRings_eq {inner : Inner} (h : inner.WellFormed)
    (res : Bytes) :
    ∃ listed : List (Ring × List Permission), inner.listResourceRings res = .ok listed ∧
      listed.map (fun e => (e.1.name, e.2)) = inner.resourceRings[res]?.getD [] := by
  unfold Inner.listResourceRings
  cases hes : inner.resourceRings[res]? with
  | none => exact ⟨[], rfl, rfl⟩
  | some es =>
      obtain ⟨listed, hok, hmap⟩ := Outcome.mapM_eq_ok
        (fun e => (e.1.name, e.2)) (f := fun e : String × List Permission => do
          let ring ← Ring.newExpect "invariant: ring names are always valid" e.1
          return (ring, e.2))
        (g := fun e => e) (l := es) fun e he => by
          have hv := h.names _ ((h.entries res es hes).exists_ring e he)
          exact ⟨(⟨e.1, hv⟩, e.2), by rw [Ring.newExpect_of_valid hv]; rfl, rfl⟩
      exact ⟨listed, hok, by rw [hmap, List.map_id']; rfl⟩

namespace Rep

variable {inner : Inner} {db : RedbRegistry}

omit [EndpointKeys] in
/-- The stored bits of an association are those of its permissions. -/
theorem permBits_eq (hperms : PermsRep inner.grants db.resourceRingPerms) {res : Bytes}
    {r : String} {ps : List Permission} (hps : inner.grants res r = some ps) :
    db.permBits res r = permsToByte ps := by
  rw [RedbRegistry.permBits, hperms.get hps, Option.getD_some]

omit [EndpointKeys] in
theorem mem_storedPerms (hperms : PermsRep inner.grants db.resourceRingPerms) {res : Bytes}
    {r : String} {ps : List Permission} (hps : inner.grants res r = some ps)
    (q : Permission) : q ∈ db.storedPerms res r ↔ q ∈ ps := by
  rw [RedbRegistry.storedPerms, hperms.get hps, Option.map_some, Option.getD_some,
    mem_byteToPerms_permsToByte]

theorem hasPermission_agree (h : Rep inner db)
    (hperms : PermsRep inner.grants db.resourceRingPerms) (hwf : inner.WellFormed) {env : Env}
    (hcmp : Comparable inner env.now) (p : EndpointId) (res : Bytes) (q : Permission) :
    inner.hasPermission env p res q = db.hasPermission env p res q := by
  obtain ⟨b, hb⟩ := inner.hasPermission_ok env p res q
  obtain ⟨b', hb', hiff'⟩ := h.hasPermission hwf hcmp p res q
  have hiff := hwf.hasPermission_iff env p res q
  rw [hb, Except.ok.injEq] at hiff
  rw [hb, hb', Except.ok.injEq, Bool.eq_iff_iff, hiff, hiff']
  refine exists_congr fun r => ?_
  rw [Inner.mem_ringNames]
  constructor
  · intro hex
    rcases hex with ⟨ps, hps, hq, hmem⟩
    refine ⟨⟨ps, hps⟩, ?_, hmem⟩
    rw [permBits_eq hperms hps, ne_eq, permsToByte_and_eq_zero, not_not]
    exact hq
  · intro hex
    rcases hex with ⟨⟨ps, hps⟩, hbits, hmem⟩
    rw [permBits_eq hperms hps, ne_eq, permsToByte_and_eq_zero, not_not] at hbits
    exact ⟨ps, hps, hbits, hmem⟩

theorem listResourceRings_agree (h : Rep inner db)
    (hperms : PermsRep inner.grants db.resourceRingPerms) (hwf : inner.WellFormed)
    (res : Bytes) :
    Outcome.Rel (List.Forall₂ fun e e' => e.1 = e'.1 ∧ ∀ q, q ∈ e.2 ↔ q ∈ e'.2)
      (inner.listResourceRings res) (db.listResourceRings res) := by
  obtain ⟨listed, hok, hmap⟩ := hwf.listResourceRings_eq res
  obtain ⟨listed', hok', hmap'⟩ := h.listResourceRings hwf res
  rw [hok, hok']
  refine .ok ?_
  -- both listings are views of the same entries
  have hviews : List.Forall₂ (fun e e' : String × List Permission =>
      e.1 = e'.1 ∧ ∀ q, q ∈ e.2 ↔ q ∈ e'.2)
      (listed.map fun e => (e.1.name, e.2)) (listed'.map fun e => (e.1.name, e.2)) := by
    rw [hmap, hmap', Inner.ringNames, List.map_map, List.forall₂_map_right_iff,
      List.forall₂_same]
    intro e he
    refine ⟨rfl, fun q => ?_⟩
    have hps : inner.grants res e.1 = some e.2 := hwf.grants_eq_some.mpr he
    exact (mem_storedPerms hperms hps q).symm
  rw [List.forall₂_map_left_iff, List.forall₂_map_right_iff] at hviews
  exact hviews.imp fun e e' hview => ⟨Ring.ext hview.1, hview.2⟩

/-- **The simulation, with permissions**: every call answers the same. -/
theorem agree (h : Rep inner db) (hperms : PermsRep inner.grants db.resourceRingPerms)
    (hwf : inner.WellFormed) {env : Env} {c : Call} (ht : TimeOk inner env c) :
    (Registry.perform env inner c).1.Agree (Registry.perform env db c).1 := by
  cases c with
  | hasPermission p res q => exact .granted (h.hasPermission_agree hperms hwf ht.clock p res q)
  | listResourceRings res => exact .resourceRings (h.listResourceRings_agree hperms hwf res)
  | _ => exact (h.step hwf ht).answer rfl

end Rep

end IrohRings
