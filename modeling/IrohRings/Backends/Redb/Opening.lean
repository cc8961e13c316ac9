import IrohRings.Backends.Redb

/-!
# IrohRings.Backends.Redb.Opening

What `RedbRegistry::open` makes of a file. It goes through five contents: the
file itself, the file bootstrapped, and that after each step of the migration
that is pending. Opening any of them gives what opening the first one gives
(`Database.opened_bootstrap` to `Database.opened_opened`).
-/

namespace IrohRings

open Foundation

/-! ### Versions -/

/-- The schema versions that differ in what is pending. -/
theorem version_cases (v : UInt32) :
    v = 0 ∨ v = 1 ∨ v = 2 ∨ (¬ v < 1 ∧ ¬ v < 2 ∧ ¬ v < 3 ∧ currentVersion ≤ v) := by
  simp only [currentVersion, ← UInt32.toNat_inj, UInt32.lt_iff_toNat_lt, UInt32.le_iff_toNat_le,
    UInt32.toNat_ofNat]
  omega

theorem not_current_of_lt_two {v : UInt32} (h : v < 2) : ¬ currentVersion ≤ v := by
  simp only [currentVersion, UInt32.le_iff_toNat_le, UInt32.lt_iff_toNat_lt,
    UInt32.toNat_ofNat] at h ⊢
  omega

namespace Database

@[simp] theorem readVersion_bumpVersion (file : Database) (version : UInt32) :
    (file.bumpVersion version).readVersion = version := by
  simp [readVersion, bumpVersion]

@[simp] theorem readVersion_bootstrap (file : Database) :
    file.bootstrap.readVersion = file.readVersion := rfl

@[simp] theorem readVersion_v0ToV1 (file : Database) : file.v0ToV1.readVersion = 1 :=
  readVersion_bumpVersion _ _

@[simp] theorem readVersion_copyNicknames (file : Database) (rows : List (Bytes × String)) :
    (file.copyNicknames rows).readVersion = 2 :=
  readVersion_bumpVersion _ _

@[simp] theorem readVersion_v2ToV3 (file : Database) : file.v2ToV3.readVersion = 3 :=
  readVersion_bumpVersion _ _

/-! ### Nothing left to bootstrap

Bootstrapping creates the tables that are missing and the open ring, and leaves a file
alone that has them. The migration drops the table of nicknames, but none of these and
no ring, so this holds of every content after the first. -/

/-- The five tables exist, and `RINGS` has the open ring. -/
structure Bootstrapped (file : Database) : Prop where
  openRing : openRingName ∈ openTable file.rings
  resourceRings : file.resourceRings.isSome
  labels : file.labels.isSome
  expiries : file.expiries.isSome
  resourceRingPerms : file.resourceRingPerms.isSome

theorem bootstrapped_bootstrap (file : Database) : file.bootstrap.Bootstrapped := by
  refine ⟨?_, rfl, rfl, rfl, rfl⟩
  show openRingName ∈ (if (openTable file.rings)[openRingName]?.isNone then _ else _)
  split
  · exact Table.mem_insert_iff.mpr (.inl rfl)
  · rename_i h
    exact Table.mem_iff.mpr (Option.isSome_iff_exists.mp (by simpa using h))

/-- Opening a table that exists. -/
theorem some_openTable {κ ν : Type} [Ord κ] {t : Option (Table κ ν)} (h : t.isSome) :
    some (openTable t) = t := by
  obtain ⟨t, rfl⟩ := Option.isSome_iff_exists.mp h
  rfl

theorem Bootstrapped.rings {file : Database} (h : file.Bootstrapped) : file.rings.isSome := by
  cases hr : file.rings with
  | none => simpa [openTable, hr] using h.openRing
  | some t => rfl

theorem Bootstrapped.bootstrap_eq {file : Database} (h : file.Bootstrapped) :
    file.bootstrap = file := by
  obtain ⟨raw, hraw⟩ := Table.mem_iff.mp h.openRing
  refine Database.ext ?_ (some_openTable h.resourceRings) (some_openTable h.labels)
    (some_openTable h.expiries) (some_openTable h.resourceRingPerms) rfl rfl
  show some (if (openTable file.rings)[openRingName]?.isNone then _ else _) = file.rings
  rw [hraw, if_neg (by simp)]
  exact some_openTable h.rings

theorem Bootstrapped.v0ToV1 {file : Database} (h : file.Bootstrapped) :
    file.v0ToV1.Bootstrapped :=
  ⟨h.openRing, rfl, h.labels, h.expiries, rfl⟩

theorem Bootstrapped.copyNicknames {file : Database} (h : file.Bootstrapped)
    (rows : List (Bytes × String)) : (file.copyNicknames rows).Bootstrapped := by
  refine ⟨h.openRing, h.resourceRings, ?_, h.expiries, h.resourceRingPerms⟩
  show (if rows.isEmpty then file.labels else some _).isSome
  split
  · exact h.labels
  · rfl

theorem Bootstrapped.v2ToV3 {file : Database} (h : file.Bootstrapped) :
    file.v2ToV3.Bootstrapped :=
  ⟨h.openRing, h.resourceRings, h.labels, h.expiries, h.resourceRingPerms⟩

/-! ### The contents an attempt goes through

Each step is a transaction of its own, with the version it leads to written in it. So an
attempt that breaks off leaves one of these contents behind, and the next attempt starts
from there. -/

/-- The file after bootstrap and the step to version 1. -/
def backfilled (file : Database) : Database :=
  if file.readVersion < 1 then file.bootstrap.v0ToV1 else file.bootstrap

/-- The file after the step to version 2. -/
def renamed (file : Database) : Database :=
  if file.readVersion < 2 then file.backfilled.v1ToV2 else file.backfilled

/-- The file once opened. -/
def opened (file : Database) : Database := file.bootstrap.migrate

theorem opened_eq (file : Database) :
    file.opened = if currentVersion ≤ file.readVersion then file.bootstrap
      else file.renamed.v2ToV3 := by
  unfold opened migrate renamed backfilled
  rw [readVersion_bootstrap]
  obtain h | h | h | ⟨h1, h2, h3, h⟩ := version_cases file.readVersion
  · simp [h, currentVersion]
  · simp [h, currentVersion]
  · simp [h, currentVersion]
  · simp [h]

/-- What bootstrapping gives and every step of the migration keeps, all the
contents after the file itself have. -/
theorem invariant_opened (inv : Database → Prop) {file : Database} (hboot : inv file.bootstrap)
    (hv1 : ∀ file, inv file → inv file.v0ToV1)
    (hv2 : ∀ file rows, inv file → inv (file.copyNicknames rows))
    (hv3 : ∀ file, inv file → inv file.v2ToV3) :
    inv file.backfilled ∧ inv file.renamed ∧ inv file.opened := by
  have hbackfilled : inv file.backfilled := by
    unfold backfilled
    split
    · exact hv1 _ hboot
    · exact hboot
  have hrenamed : inv file.renamed := by
    unfold renamed
    split
    · exact hv2 _ _ hbackfilled
    · exact hbackfilled
  refine ⟨hbackfilled, hrenamed, ?_⟩
  rw [opened_eq]
  split
  · exact hboot
  · exact hv3 _ hrenamed

theorem bootstrapped (file : Database) :
    file.backfilled.Bootstrapped ∧ file.renamed.Bootstrapped ∧ file.opened.Bootstrapped :=
  invariant_opened Bootstrapped file.bootstrapped_bootstrap (fun _ => Bootstrapped.v0ToV1)
    (fun _ rows h => h.copyNicknames rows) fun _ => Bootstrapped.v2ToV3

theorem readVersion_backfilled (file : Database) :
    file.backfilled.readVersion = if file.readVersion < 1 then 1 else file.readVersion := by
  unfold backfilled
  split <;> simp

theorem readVersion_renamed (file : Database) :
    file.renamed.readVersion = if file.readVersion < 2 then 2 else file.readVersion := by
  unfold renamed
  split
  · exact readVersion_copyNicknames _ _
  · rename_i h
    rw [readVersion_backfilled, if_neg]
    simp only [UInt32.lt_iff_toNat_lt, UInt32.toNat_ofNat] at h ⊢
    omega

theorem readVersion_opened (file : Database) :
    file.opened.readVersion =
      if currentVersion ≤ file.readVersion then file.readVersion else currentVersion := by
  rw [opened_eq]
  split
  · rfl
  · exact readVersion_v2ToV3 _

/-! ### Opening a content an attempt went through

What was done is not done again, since the version says so, and what was left is done
now; the result is the same as if nothing had broken off. -/

theorem opened_bootstrap (file : Database) : file.bootstrap.opened = file.opened := by
  rw [opened, opened, file.bootstrapped_bootstrap.bootstrap_eq]

/-- The step to version 1 is not repeated. -/
theorem backfilled_backfilled (file : Database) : file.backfilled.backfilled = file.backfilled := by
  rw [backfilled, file.bootstrapped.1.bootstrap_eq, if_neg]
  rw [readVersion_backfilled]
  split
  · decide
  · assumption

theorem renamed_backfilled (file : Database) : file.backfilled.renamed = file.renamed := by
  rw [renamed, renamed, backfilled_backfilled, readVersion_backfilled]
  obtain h | h | h | ⟨h1, h2, -, -⟩ := version_cases file.readVersion
  · simp [h]
  · simp [h]
  · simp [h]
  · simp [h1, h2]

/-- The step to version 2 is not repeated. -/
theorem renamed_renamed (file : Database) : file.renamed.renamed = file.renamed := by
  have hversion : ¬ file.renamed.readVersion < 2 := by
    rw [readVersion_renamed]
    split
    · decide
    · assumption
  have hlow : ¬ file.renamed.readVersion < 1 := by
    simp only [UInt32.lt_iff_toNat_lt, UInt32.toNat_ofNat] at hversion ⊢
    omega
  rw [renamed, if_neg hversion, backfilled, if_neg hlow,
    file.bootstrapped.2.1.bootstrap_eq]

/-- A content on the way, at a version that is not the current one yet. -/
theorem opened_of_renamed_eq {file file' : Database} (h : ¬ currentVersion ≤ file.readVersion)
    (h' : ¬ currentVersion ≤ file'.readVersion) (hrenamed : file'.renamed = file.renamed) :
    file'.opened = file.opened := by
  rw [opened_eq, opened_eq, if_neg h, if_neg h', hrenamed]

theorem opened_backfilled {file : Database} (h : ¬ currentVersion ≤ file.readVersion) :
    file.backfilled.opened = file.opened := by
  refine opened_of_renamed_eq h ?_ file.renamed_backfilled
  rw [readVersion_backfilled]
  split
  · decide
  · exact h

theorem opened_renamed {file : Database} (h : ¬ currentVersion ≤ file.readVersion) :
    file.renamed.opened = file.opened := by
  refine opened_of_renamed_eq h ?_ file.renamed_renamed
  rw [readVersion_renamed]
  split
  · decide
  · exact h

/-- Nothing is left to do at the current version. -/
theorem Bootstrapped.opened_eq {file : Database} (h : file.Bootstrapped)
    (hversion : currentVersion ≤ file.readVersion) : file.opened = file := by
  rw [Database.opened_eq, if_pos hversion, h.bootstrap_eq]

/-! ### Labels

The step to version 2 copies the rows of the table of nicknames and then deletes it. A
file at an earlier version that has labels already has them overwritten by the
nicknames under the same keys. -/

theorem labels_backfilled (file : Database) :
    openTable file.backfilled.labels = openTable file.labels := by
  unfold backfilled
  split <;> rfl

theorem nicknames_backfilled (file : Database) : file.backfilled.nicknames = file.nicknames := by
  unfold backfilled
  split <;> rfl

/-- The rows that were read are written; they replace what was there. -/
theorem labels_v1ToV2 (file : Database) (key : Bytes) :
    (openTable file.v1ToV2.labels)[key]? =
      (openTable file.nicknames)[key]?.or (openTable file.labels)[key]? := by
  have hrows : file.nicknameRows = (openTable file.nicknames).toList := by
    unfold nicknameRows openTable
    cases file.nicknames with
    | none => simp
    | some t => rfl
  have hfold := Table.get_foldl_insert (openTable file.nicknames) (openTable file.labels) key
  rw [← hfold, ← hrows]
  show (openTable (if file.nicknameRows.isEmpty then file.labels else some _))[key]? = _
  split
  · rename_i h
    rw [List.isEmpty_iff.mp h]
    rfl
  · rfl

theorem labels_renamed (file : Database) (key : Bytes) :
    (openTable file.renamed.labels)[key]? =
      if file.readVersion < 2 then
        (openTable file.nicknames)[key]?.or (openTable file.labels)[key]?
      else (openTable file.labels)[key]? := by
  unfold renamed
  split
  · rw [labels_v1ToV2, labels_backfilled, nicknames_backfilled]
  · rw [labels_backfilled]

theorem nicknames_renamed (file : Database) :
    file.renamed.nicknames = if file.readVersion < 2 then none else file.nicknames := by
  unfold renamed
  split
  · rfl
  · exact file.nicknames_backfilled

/-- The labels of an opened file: up to version 1, the nicknames go first. -/
theorem labels_opened (file : Database) (key : Bytes) :
    (openTable file.opened.labels)[key]? =
      if file.readVersion < 2 then
        (openTable file.nicknames)[key]?.or (openTable file.labels)[key]?
      else (openTable file.labels)[key]? := by
  rw [opened_eq]
  split
  · rename_i h
    rw [if_neg fun hlow => not_current_of_lt_two hlow h]
    rfl
  · exact file.labels_renamed key

/-- An opened file is at the current version. -/
theorem current_opened (file : Database) : currentVersion ≤ file.opened.readVersion := by
  rw [readVersion_opened]
  split
  · assumption
  · exact UInt32.le_refl _

theorem opened_opened (file : Database) : file.opened.opened = file.opened :=
  file.bootstrapped.2.2.opened_eq file.current_opened

end Database

/-- The file a registry leaves behind that was opened on `file`. -/
theorem close_openDatabase (file : Database) :
    (RedbRegistry.openDatabase file).close = file.opened := by
  have h := file.bootstrapped.2.2
  exact Database.ext (Database.some_openTable h.rings)
    (Database.some_openTable h.resourceRings) (Database.some_openTable h.labels)
    (Database.some_openTable h.expiries) (Database.some_openTable h.resourceRingPerms) rfl rfl

end IrohRings
