import IrohRings.Backends.Redb.Opening
import IrohRings.Backends.Redb.Rep

/-!
# IrohRings.Backends.Redb.OldSchemas

What an older database means, and that opening it preserves that
(`openDatabase_preserves`). Before version 1 there were no permissions, and an
association let its members read; before version 2 labels were nicknames; before
version 3 memberships did not expire.
-/

namespace IrohRings

open Foundation

namespace Database

/-- The rows of a file, as tables. -/
def tables (file : Database) : RedbRegistry where
  rings := openTable file.rings
  resourceRings := openTable file.resourceRings
  labels := openTable file.labels
  expiries := openTable file.expiries
  resourceRingPerms := openTable file.resourceRingPerms
  metaRows := file.metaRows
  nicknames := file.nicknames

/-- The file was written at the given schema version: the tables that came later
have no rows. -/
structure WrittenAt (file : Database) (version : UInt32) : Prop where
  readVersion : file.readVersion = version
  resourceRingPerms : version < 1 → openTable file.resourceRingPerms = ∅
  labels : version < 2 → openTable file.labels = ∅
  expiries : openTable file.expiries = ∅

/-! ### The tables of an opened file

Which step of the migration writes which table: bootstrapping may add the open ring, the
step to version 1 writes the permission rows, the one to version 2 the labels, and none
touches the associations or the expiries. -/

theorem rings_opened (file : Database) : file.opened.rings = file.bootstrap.rings :=
  (invariant_opened (fun file' => file'.rings = file.bootstrap.rings) rfl (fun _ h => h)
    (fun _ _ h => h) fun _ h => h).2.2

theorem resourceRings_opened (file : Database) :
    openTable file.opened.resourceRings = openTable file.resourceRings :=
  (invariant_opened (fun file' => openTable file'.resourceRings = openTable file.resourceRings)
    rfl (fun _ h => h) (fun _ _ h => h) fun _ h => h).2.2

theorem expiries_opened (file : Database) :
    openTable file.opened.expiries = openTable file.expiries :=
  (invariant_opened (fun file' => openTable file'.expiries = openTable file.expiries)
    rfl (fun _ h => h) (fun _ _ h => h) fun _ h => h).2.2

theorem resourceRingPerms_opened (file : Database) :
    openTable file.opened.resourceRingPerms =
      if file.readVersion < 1 then openTable file.bootstrap.v0ToV1.resourceRingPerms
      else openTable file.resourceRingPerms := by
  rw [opened_eq, renamed, backfilled]
  split
  · rename_i h
    rw [if_neg]
    · rfl
    · intro hlow
      refine not_current_of_lt_two ?_ h
      simp only [UInt32.lt_iff_toNat_lt, UInt32.toNat_ofNat] at hlow ⊢
      omega
  · split <;> split <;> rfl

/-- Bootstrapping adds the open ring. -/
theorem get_rings_bootstrap (file : Database) (r : String) :
    (openTable file.bootstrap.rings)[r]? =
      (openTable file.rings)[r]?.or
        (if r = openRingName then some (encodePeerIds []) else none) := by
  let rings := openTable file.rings
  show (if rings[openRingName]?.isNone then rings.insert openRingName (encodePeerIds [])
    else rings)[r]? = _
  by_cases hr : r = openRingName
  · subst hr
    cases h : rings[openRingName]? with
    | none => simp [rings]
    | some raw => simp [rings, h]
  · have hsame : (if rings[openRingName]?.isNone then
        rings.insert openRingName (encodePeerIds []) else rings)[r]? = rings[r]? := by
      split
      · rw [Table.get_insert, if_neg hr]
      · rfl
    rw [hsame, if_neg hr, Option.or_none]

/-- The step to version 1 writes the `Read` bit for every association. -/
theorem get_perms_v0ToV1 (file : Database) (h : openTable file.resourceRingPerms = ∅)
    (key : Bytes) (bits : UInt8) :
    (openTable file.v0ToV1.resourceRingPerms)[key]? = some bits ↔
      bits = readBit ∧ ∃ res r, r ∈ file.tables.ringNames res ∧ permKey res r = key := by
  let keys := (openTable file.resourceRings).toList.flatMap
    fun row => (decodeRingNames row.2).map (permKey row.1)
  -- the two nested loops go through the keys of all associations
  have hfold : (openTable file.v0ToV1.resourceRingPerms)[key]? =
      (keys.foldl (fun t k => if t[k]?.isNone then t.insert k readBit else t)
        (openTable file.resourceRingPerms))[key]? := by
    simp only [keys, v0ToV1, List.foldl_map, List.foldl_flatMap]
    rfl
  have hkeys : key ∈ keys ↔ ∃ res r, r ∈ file.tables.ringNames res ∧ permKey res r = key := by
    simp only [keys, List.mem_flatMap, List.mem_map, Prod.exists]
    constructor
    · intro hex
      rcases hex with ⟨res, raw, hrow, r, hr, rfl⟩
      rw [Std.ExtTreeMap.mem_toList_iff_getElem?_eq_some] at hrow
      exact ⟨res, r, by simpa [RedbRegistry.ringNames, tables, hrow] using hr, rfl⟩
    · intro hex
      rcases hex with ⟨res, r, hr, rfl⟩
      unfold RedbRegistry.ringNames at hr
      cases hrow : file.tables.resourceRings[res]? with
      | none => simp [hrow] at hr
      | some raw =>
          rw [hrow] at hr
          exact ⟨res, raw, Std.ExtTreeMap.mem_toList_iff_getElem?_eq_some.mpr hrow, r, hr, rfl⟩
  rw [hfold, Table.get_foldl_insertIfNew, h, ← hkeys]
  split
  · rename_i hmem
    simp [hmem, eq_comm]
  · rename_i hmem
    simp [hmem]

end Database

/-! ### Access where nothing expires

No schema before the current one has expiries, and neither has such a file once it is
open. Access then only depends on the associations, their rows, and the members of the
rings other than the open one, which lets everyone in. -/

/-- The `Read` bit is the bit of `Read` and of nothing else. -/
theorem readBit_and_ne_zero {q : Permission} : readBit &&& permissionBit q ≠ 0 ↔ q = .read := by
  cases q <;> decide

variable [EndpointKeys]

theorem isExpired_empty (r : String) (p : EndpointId) (now : SystemTime) :
    RedbRegistry.isExpired ∅ r p now = .ok false := by
  simp [RedbRegistry.isExpired, RedbRegistry.readExpiry, bind, Except.bind, pure, Except.pure]

/-- Access where no membership has an expiry: it is enough to be stored. -/
theorem hasPermission_of_no_expiries {db : RedbRegistry} (h : db.expiries = ∅) (env : Env)
    (p : EndpointId) (res : Bytes) (q : Permission) :
    ∃ b, db.hasPermission env p res q = .ok b ∧
      (b = true ↔ ∃ r ∈ db.ringNames res, db.permBits res r &&& permissionBit q ≠ 0 ∧
        (r = openRingName ∨ db.Stores r p.asBytes)) := by
  have hexpired : ∀ r, RedbRegistry.isExpired db.expiries r p env.now = .ok false := by
    intro r
    rw [h, isExpired_empty]
  have hlets : ∀ r, db.LetsIn env.now p r ↔ db.Stores r p.asBytes := fun r =>
    and_iff_left (hexpired r)
  rw [Rep.hasPermission_eq_scanNames]
  obtain ⟨b, hb, hiff⟩ := db.scanNames_spec (fun r => ⟨_, hexpired r⟩) res q (db.ringNames res)
  simp only [hlets] at hiff
  exact ⟨b, hb, hiff⟩

/-- Two databases without expiries that agree on the associations, their rows and
the rings other than the open one answer alike. -/
theorem hasPermission_congr {db db' : RedbRegistry} (h : db.expiries = ∅) (h' : db'.expiries = ∅)
    (hnames : db.resourceRings = db'.resourceRings)
    (hrows : db.resourceRingPerms = db'.resourceRingPerms)
    (hrings : ∀ r, r ≠ openRingName → db.rings[r]? = db'.rings[r]?) (env : Env)
    (p : EndpointId) (res : Bytes) (q : Permission) :
    db.hasPermission env p res q = db'.hasPermission env p res q := by
  obtain ⟨b, hb, hiff⟩ := hasPermission_of_no_expiries h env p res q
  obtain ⟨b', hb', hiff'⟩ := hasPermission_of_no_expiries h' env p res q
  rw [hb, hb', Except.ok.injEq, Bool.eq_iff_iff, hiff, hiff']
  simp only [RedbRegistry.ringNames, RedbRegistry.permBits, hnames, hrows]
  refine exists_congr fun r => and_congr_right fun _ => and_congr_right fun _ => ?_
  by_cases hr : r = openRingName
  · exact iff_of_true (.inl hr) (.inl hr)
  · rw [RedbRegistry.Stores, RedbRegistry.Stores, hrings r hr]

/-! ### Opening an older database

What a file meant at its version is written out here a second time, from what that
version stored: which peers were in which ring, under which name, and what they could
do. -/

/-- The open registry means what the file meant at its version. -/
structure Preserves (file : Database) (version : UInt32) (db : RedbRegistry) : Prop where
  rings : ∀ r : String, db.rings[r]? = (openTable file.rings)[r]?.or
    (if r = openRingName then some (encodePeerIds []) else none)
  resourceRings : db.resourceRings = openTable file.resourceRings
  /-- Without permission rows, an association lets its members read, and nobody
  do anything else. -/
  readOnly : version < 1 → ∀ env p res,
    (db.hasPermission env p res .read = .ok true ↔
      ∃ r ∈ file.tables.ringNames res, r = openRingName ∨ file.tables.Stores r p.asBytes) ∧
    ∀ q, q ≠ .read → db.hasPermission env p res q = .ok false
  resourceRingPerms : ¬ version < 1 → db.resourceRingPerms = openTable file.resourceRingPerms
  access : ¬ version < 1 → ∀ env p res q,
    db.hasPermission env p res q = file.tables.hasPermission env p res q
  labels : ∀ key : Bytes, db.labels[key]? =
    if version < 2 then (openTable file.nicknames)[key]? else (openTable file.labels)[key]?
  expiries : db.expiries = ∅
  version : db.close.readVersion = currentVersion

omit [EndpointKeys] in
/-- Every association of a file from before version 1 gets the `Read` bit. -/
theorem permBits_of_backfilled {file : Database} (hlow : file.readVersion < 1)
    (hempty : openTable file.resourceRingPerms = ∅) {res : Bytes} {r : String}
    (hr : r ∈ file.tables.ringNames res) :
    (RedbRegistry.openDatabase file).permBits res r = readBit := by
  have hrow : (openTable file.opened.resourceRingPerms)[permKey res r]? = some readBit := by
    rw [Database.resourceRingPerms_opened, if_pos hlow,
      Database.get_perms_v0ToV1 file.bootstrap hempty]
    exact ⟨rfl, res, r, hr, rfl⟩
  show (openTable file.opened.resourceRingPerms)[permKey res r]?.getD 0 = readBit
  rw [hrow]
  rfl

/-- **Opening an older database preserves what it means.** -/
theorem openDatabase_preserves (file : Database) (version : UInt32)
    (hwritten : file.WrittenAt version) (hold : version < currentVersion) :
    Preserves file version (RedbRegistry.openDatabase file) := by
  obtain ⟨rfl, hperms, hlabels, hexpiries⟩ := hwritten
  have hnoexpiry : (RedbRegistry.openDatabase file).expiries = ∅ :=
    file.expiries_opened.trans hexpiries
  have hnames : (RedbRegistry.openDatabase file).resourceRings = openTable file.resourceRings :=
    file.resourceRings_opened
  have hrings : ∀ r : String, (RedbRegistry.openDatabase file).rings[r]? =
      (openTable file.rings)[r]?.or
        (if r = openRingName then some (encodePeerIds []) else none) := fun r => by
    rw [← file.get_rings_bootstrap, ← file.rings_opened]
    rfl
  have hsame : ∀ r : String, r ≠ openRingName →
      (RedbRegistry.openDatabase file).rings[r]? = file.tables.rings[r]? := fun r hr => by
    rw [hrings, if_neg hr, Option.or_none]
    rfl
  have hrows : ¬ file.readVersion < 1 → (RedbRegistry.openDatabase file).resourceRingPerms =
      openTable file.resourceRingPerms := fun h =>
    file.resourceRingPerms_opened.trans (if_neg h)
  exact {
    rings := hrings
    resourceRings := hnames
    readOnly := fun hlow env p res => by
      have haccess : ∀ q, ∃ b, (RedbRegistry.openDatabase file).hasPermission env p res q = .ok b ∧
          (b = true ↔ q = .read ∧ ∃ r ∈ file.tables.ringNames res,
            r = openRingName ∨ file.tables.Stores r p.asBytes) := by
        intro q
        obtain ⟨b, hb, hiff⟩ := hasPermission_of_no_expiries hnoexpiry env p res q
        refine ⟨b, hb, hiff.trans ?_⟩
        have hres : (RedbRegistry.openDatabase file).ringNames res =
            file.tables.ringNames res := by
          rw [RedbRegistry.ringNames, hnames]
          rfl
        rw [hres, ← exists_and_left]
        refine exists_congr fun r => ?_
        rw [and_left_comm (a := q = .read)]
        refine and_congr_right fun hr => ?_
        rw [permBits_of_backfilled hlow (hperms hlow) hr, readBit_and_ne_zero]
        refine and_congr_right fun _ => ?_
        by_cases hopen : r = openRingName
        · exact iff_of_true (.inl hopen) (.inl hopen)
        · rw [RedbRegistry.Stores, RedbRegistry.Stores, hsame r hopen]
      constructor
      · obtain ⟨b, hb, hiff⟩ := haccess .read
        rw [hb, Except.ok.injEq, hiff]
        simp
      · intro q hq
        obtain ⟨b, hb, hiff⟩ := haccess q
        rw [hb, Except.ok.injEq, ← Bool.not_eq_true, hiff]
        exact fun h => hq h.1
    resourceRingPerms := hrows
    access := fun hhigh env p res q =>
      hasPermission_congr hnoexpiry hexpiries hnames (hrows hhigh) hsame env p res q
    labels := fun key => by
      refine (file.labels_opened key).trans ?_
      split
      · rename_i hlow
        rw [hlabels hlow]
        simp
      · rfl
    expiries := hnoexpiry
    version := by
      rw [close_openDatabase, Database.readVersion_opened, if_neg (UInt32.not_le.mpr hold)] }

/-- A file from before version 1: a ring that may read a resource, and whose
member has a nickname. -/
def nicknameFile : Database := { Database.empty with
  rings := some ((∅ : Table String Bytes).insert "team" (encodePeerIds [basePointBytes]))
  resourceRings := some ((∅ : Table Bytes Bytes).insert [0x61] (encodeRingNames ["team"]))
  nicknames := some ((∅ : Table Bytes String).insert
    (memberKeyOf "team" basePointBytes) "laptop") }

omit [EndpointKeys] in
theorem openDatabase_preserves_nicknameFile :
    @Preserves EndpointKeys.basePoint nicknameFile 0
      (RedbRegistry.openDatabase nicknameFile) :=
  @openDatabase_preserves EndpointKeys.basePoint nicknameFile 0
    ⟨rfl, fun _ => rfl, fun _ => rfl, rfl⟩ (by decide)

end IrohRings
