import IrohRings.Backends.Redb.Codec

/-!
# IrohRings.Backends.Redb.Migrations

The database file and its schema migrations (`src/backends/redb/migrations.rs`,
and the bootstrap transaction of `RedbRegistry::open`).

A `redb` table is its contents, iterated in key order; a table of the file may
not exist yet. Every function named after a migration step of the source is one
write transaction, so it takes one durable state to the next.

| Version | Change |
|---------|--------|
| 0 | `RINGS`, `RESOURCE_RINGS`, `NICKNAMES` |
| 1 | added `RESOURCE_RING_PERMS`, existing associations backfilled with `Read` |
| 2 | `NICKNAMES` renamed to `LABELS` |
| 3 | added `EXPIRIES` |
-/

namespace IrohRings

open Foundation

/-- A database file: the committed contents of each table, if it exists. -/
@[ext]
structure Database where
  rings : Option (Table String Bytes)
  resourceRings : Option (Table Bytes Bytes)
  labels : Option (Table Bytes String)
  expiries : Option (Table Bytes ExpiryRow)
  resourceRingPerms : Option (Table Bytes UInt8)
  /-- The `META` table. -/
  metaRows : Option (Table String UInt32)
  /-- The legacy table `LABELS` replaced. -/
  nicknames : Option (Table Bytes String)

/-- `write.open_table`: a missing table is created empty. -/
def openTable {κ ν : Type} [Ord κ] (table : Option (Table κ ν)) : Table κ ν := table.getD ∅

def schemaVersionKey : String := "schema_version"

/-- The schema version this code targets. -/
def currentVersion : UInt32 := 3

/-- Permission bitfield value for `Read`-only access. -/
def readBit : UInt8 := 0b001

namespace Database

/-- The content of a new file. -/
def empty : Database := ⟨none, none, none, none, none, none, none⟩

/-- The bootstrap transaction of `open`: the five tables exist, and `RINGS` has
the open ring. -/
def bootstrap (db : Database) : Database :=
  let rings := openTable db.rings
  { db with
    rings := some
      (if rings[openRingName]?.isNone then rings.insert openRingName (encodePeerIds [])
      else rings)
    resourceRings := some (openTable db.resourceRings)
    labels := some (openTable db.labels)
    expiries := some (openTable db.expiries)
    resourceRingPerms := some (openTable db.resourceRingPerms) }

def readVersion (db : Database) : UInt32 :=
  match db.metaRows with
  | some table => table[schemaVersionKey]?.getD 0
  | none => 0

/-- Record the schema version in `META`. -/
def bumpVersion (db : Database) (version : UInt32) : Database :=
  { db with metaRows := some ((openTable db.metaRows).insert schemaVersionKey version) }

/-- Write a `Read`-only permission row unless the association has a row. -/
def backfillRow (resourceId : Bytes) (perms : Table Bytes UInt8) (ringName : String) :
    Table Bytes UInt8 :=
  let key := permKey resourceId ringName
  if perms[key]?.isNone then perms.insert key readBit else perms

/-- Backfill `RESOURCE_RING_PERMS` for every existing association. -/
def v0ToV1 (db : Database) : Database :=
  let rrTable := openTable db.resourceRings
  let entries := rrTable.toList.map fun (k, v) => (k, decodeRingNames v)
  let permTable := entries.foldl
    (fun perms (resourceId, ringNames) => ringNames.foldl (backfillRow resourceId) perms)
    (openTable db.resourceRingPerms)
  { db with
    resourceRings := some rrTable
    resourceRingPerms := some permTable }.bumpVersion 1

/-- The rows of the legacy table, in the read transaction of `v1ToV2`. -/
def nicknameRows (db : Database) : List (Bytes × String) :=
  match db.nicknames with
  | some table => table.toList
  | none => []

/-- The write transaction of `v1ToV2`: copy the rows that were read into
`LABELS` and delete the old table. -/
def copyNicknames (db : Database) (rows : List (Bytes × String)) : Database :=
  { db with
    labels :=
      if rows.isEmpty then db.labels
      else some (rows.foldl (fun labels (key, value) => labels.insert key value)
        (openTable db.labels))
    nicknames := none }.bumpVersion 2

def v1ToV2 (db : Database) : Database := db.copyNicknames db.nicknameRows

/-- Only the version bump: `open` has created the table. -/
def v2ToV3 (db : Database) : Database := db.bumpVersion 3

/-- Run all pending migration steps, in sequence. The version is read once. -/
def migrate (db : Database) : Database :=
  let version := db.readVersion
  if currentVersion ≤ version then db
  else
    let db := if version < 1 then db.v0ToV1 else db
    let db := if version < 2 then db.v1ToV2 else db
    if version < 3 then db.v2ToV3 else db

end Database

end IrohRings
