import IrohRings.Backends.Redb.Migrations
import IrohRings.Backends.Memory

/-!
# IrohRings.Backends.Redb

`RedbRegistry` (`src/backends/redb/mod.rs`): the registry in five flat tables.

```text
rings               ring_name → flat-concatenated peer-id bytes (32 B each)
resourceRings       resource_id → NUL-separated ring names
labels              ring_name\0peer_id → display label
expiries            ring_name\0peer_id → membership expiry (secs, nanos)
resourceRingPerms   [2B len][resource_id][ring_name] → permission bitfield
```

`openDatabase` is the only way to a registry, and its bootstrap transaction
creates the five tables, so they are not optional here. A method that writes
runs in one write transaction (`commit`): its changes are kept only if it
returns `Ok`. Reads and writes of the database itself are assumed not to fail.
-/

namespace IrohRings

open Foundation

/-- An open database: its tables. -/
@[ext]
structure RedbRegistry where
  rings : Table String Bytes
  resourceRings : Table Bytes Bytes
  labels : Table Bytes String
  expiries : Table Bytes ExpiryRow
  resourceRingPerms : Table Bytes UInt8
  metaRows : Option (Table String UInt32)
  nicknames : Option (Table Bytes String)

namespace RedbRegistry

/-- The file a registry leaves behind when it is dropped. -/
def close (db : RedbRegistry) : Database where
  rings := some db.rings
  resourceRings := some db.resourceRings
  labels := some db.labels
  expiries := some db.expiries
  resourceRingPerms := some db.resourceRingPerms
  metaRows := db.metaRows
  nicknames := db.nicknames

/-- `RedbRegistry::open`. -/
def openDatabase (file : Database) : RedbRegistry :=
  let file := file.bootstrap.migrate
  { rings := openTable file.rings
    resourceRings := openTable file.resourceRings
    labels := openTable file.labels
    expiries := openTable file.expiries
    resourceRingPerms := openTable file.resourceRingPerms
    metaRows := file.metaRows
    nicknames := file.nicknames }

/-- End a write transaction that started in `db`: commit on `Ok`, abort else. -/
def commit {α : Type} (db : RedbRegistry) :
    Outcome (α × RedbRegistry) → Outcome α × RedbRegistry
  | .ok (a, db') => (.ok a, db')
  | .error e => (.error e, db)

/-- Drop the label and the expiry row of a key. -/
def clear (db : RedbRegistry) (key : Bytes) : RedbRegistry :=
  { db with labels := db.labels.erase key, expiries := db.expiries.erase key }

/-- Write the label and the expiry that were given; `none` leaves an existing
row untouched. -/
def annotate (db : RedbRegistry) (key : Bytes) (label : Option String)
    (expiresAt : Option SystemTime) : RedbRegistry :=
  let db := match label with
    | some lbl => { db with labels := db.labels.insert key lbl }
    | none => db
  match expiresAt with
  | some t => { db with expiries := db.expiries.insert key (encodeExpiry t) }
  | none => db

/-- The decoded expiry of a key, if it has a row. -/
def readExpiry (expiries : Table Bytes ExpiryRow) (key : Bytes) :
    Outcome (Option SystemTime) :=
  match expiries[key]? with
  | none => .ok none
  | some row => (decodeExpiry row).map some

variable [EndpointKeys]

/-- Has the membership of `peer` in `ringName` expired as of `now`? -/
def isExpired (expiries : Table Bytes ExpiryRow) (ringName : String) (peer : EndpointId)
    (now : SystemTime) : Outcome Bool := do
  let expiresAt ← readExpiry expiries (memberKey ringName peer)
  return expiresAt.any (· ≤ now)

def createRing (db : RedbRegistry) (ringName : String) : Outcome Unit × RedbRegistry :=
  match Ring.new ringName with
  | .error e => (.err e, db)
  | .ok ring =>
    if ring.isOpen then (.err (.ringNameReserved openRingName), db)
    else db.commit <|
      if db.rings[ringName]?.isSome then .err (.ringAlreadyExists ringName)
      else .ok ((), { db with rings := db.rings.insert ringName (encodePeerIds []) })

/-- The member list of a ring. -/
def readMembers (db : RedbRegistry) (ringName : String) : Outcome (List PeerBytes) :=
  match db.rings[ringName]? with
  | some raw => .ok (decodePeerIds raw)
  | none => .err (.ringNotFound ringName)

def addPeerToRing (env : Env) (db : RedbRegistry) (ringName : String) (peer : EndpointId)
    (label : Option String) (expiresAt : Option SystemTime) : Outcome Unit × RedbRegistry :=
  db.commit do
    let members ← db.readMembers ringName
    let key := memberKey ringName peer
    let db ←
      if ¬ peer.asBytes ∈ members then
        pure { db with
          rings := db.rings.insert ringName (encodePeerIds (members ++ [peer.asBytes])) }
      else do
        -- re-adding an expired membership starts fresh
        let expired ← isExpired db.expiries ringName peer env.now
        pure (if expired then db.clear key else db)
    return ((), db.annotate key label expiresAt)

def removePeerFromRing (db : RedbRegistry) (ringName : String) (peer : EndpointId) :
    Outcome Unit × RedbRegistry :=
  db.commit do
    let members ← db.readMembers ringName
    let members := members.filter (· ≠ peer.asBytes)
    let db := { db with rings := db.rings.insert ringName (encodePeerIds members) }
    return ((), db.clear (memberKey ringName peer))

/-- The loop of `listRingPeers`; expired memberships are skipped. -/
def listPeers (db : RedbRegistry) (now : SystemTime) (ringName : String) :
    List PeerBytes → Outcome (List RingMember)
  | [] => .ok []
  | b :: rest => do
    let peer ← decodeEndpointId b
    let key := memberKey ringName peer
    let expiresAt ← readExpiry db.expiries key
    let peers ← db.listPeers now ringName rest
    if expiresAt.any (· ≤ now) then return peers
    else return ⟨peer, db.labels[key]?, expiresAt⟩ :: peers

def listRingPeers (env : Env) (db : RedbRegistry) (ringName : String) :
    Outcome (List RingMember) := do
  let members ← db.readMembers ringName
  db.listPeers env.now ringName members

def listRings (_ : Env) (db : RedbRegistry) : Outcome (List Ring) := do
  let names := db.rings.keys.filter (· ≠ openRingName)
  let rings ← names.mapM (Ring.newExpect "invariant: db ring names are always valid")
  return Ring.newOpen :: rings

/-- The stored ring names of a resource. -/
def ringNames (db : RedbRegistry) (resourceId : Bytes) : List String :=
  (db.resourceRings[resourceId]?.map decodeRingNames).getD []

def removeRingFromResource (db : RedbRegistry) (resourceId : Bytes) :
    Outcome Unit × RedbRegistry :=
  db.commit <| .ok ((), { db with
    resourceRings := db.resourceRings.erase resourceId
    resourceRingPerms := (db.ringNames resourceId).foldl
      (fun perms name => perms.erase (permKey resourceId name)) db.resourceRingPerms })

/-- The stored permission bitfield of an association, zero when it has no row. -/
def permBits (db : RedbRegistry) (resourceId : Bytes) (ringName : String) : UInt8 :=
  db.resourceRingPerms[permKey resourceId ringName]?.getD 0

/-- The stored permission set of an association. -/
def storedPerms (db : RedbRegistry) (resourceId : Bytes) (ringName : String) :
    List Permission :=
  (db.resourceRingPerms[permKey resourceId ringName]?.map byteToPerms).getD []

def listResourceRings (db : RedbRegistry) (resourceId : Bytes) :
    Outcome (List (Ring × List Permission)) :=
  (db.ringNames resourceId).mapM fun name => do
    let ring ← Ring.newExpect "invariant: db ring names are always valid" name
    return (ring, db.storedPerms resourceId name)

def addRingToResource (db : RedbRegistry) (resourceId : Bytes) (ringName : String)
    (permissions : List Permission) : Outcome Unit × RedbRegistry :=
  match validateRingPermissions ringName permissions with
  | .error e => (.err e, db)
  | .ok () => db.commit <|
    if db.rings[ringName]?.isNone then .err (.ringNotFound ringName)
    else
      let existing := (db.ringNames resourceId).map fun name =>
        (name, db.storedPerms resourceId name)
      let updated := computeResourceRings existing ringName permissions
      .ok ((), { db with
        resourceRings := db.resourceRings.insert resourceId
          (encodeRingNames (updated.map Prod.fst))
        -- only the new ring's row; the rows of the others are already correct
        resourceRingPerms := db.resourceRingPerms.insert (permKey resourceId ringName)
          (permsToByte permissions) })

/-- The loop of `hasPermission` over a resource's ring names. -/
def scanNames (db : RedbRegistry) (now : SystemTime) (peer : EndpointId)
    (resourceId : Bytes) (permission : Permission) : List String → Outcome Bool
  | [] => .ok false
  | name :: rest =>
    if db.permBits resourceId name &&& permissionBit permission = 0 then
      db.scanNames now peer resourceId permission rest
    else if name = openRingName then .ok true
    else
      match db.rings[name]? with
      | none => db.scanNames now peer resourceId permission rest
      | some raw =>
        if peer.asBytes ∈ decodePeerIds raw then do
          let expired ← isExpired db.expiries name peer now
          if ¬ expired then return true
          else db.scanNames now peer resourceId permission rest
        else db.scanNames now peer resourceId permission rest

def hasPermission (env : Env) (db : RedbRegistry) (peer : EndpointId) (resourceId : Bytes)
    (permission : Permission) : Outcome Bool :=
  match db.resourceRings[resourceId]? with
  | none => .ok false
  | some raw =>
    let ringNames := decodeRingNames raw
    if ringNames.isEmpty then .ok false
    else db.scanNames env.now peer resourceId permission ringNames

/-- The rows of `EXPIRIES` that have expired as of `now`: the raw key, and the
ring and peer it names. -/
def collectExpired (now : SystemTime) :
    List (Bytes × ExpiryRow) → Outcome (List (Bytes × String × EndpointId))
  | [] => .ok []
  | (key, row) :: rest => do
    let expiresAt ← decodeExpiry row
    if expiresAt ≤ now then
      let (ringName, peer) ← splitMemberKey key
      let expired ← collectExpired now rest
      return (key, ringName, peer) :: expired
    else collectExpired now rest

/-- The expired peers of each ring. -/
def groupByRing (expired : List (Bytes × String × EndpointId)) :
    HashMap String (List PeerBytes) :=
  expired.foldl
    (fun byRing (_, ringName, peer) =>
      byRing.insert ringName (byRing[ringName]?.getD [] ++ [peer.asBytes]))
    ∅

omit [EndpointKeys] in
/-- Rewrite one ring's member list without its expired peers. -/
def rewriteRing (rings : Table String Bytes) (group : String × List PeerBytes) :
    Table String Bytes :=
  match rings[group.1]? with
  | none => rings
  | some raw =>
    rings.insert group.1 (encodePeerIds ((decodePeerIds raw).filter (· ∉ group.2)))

def evictExpired (env : Env) (db : RedbRegistry) (now : SystemTime) :
    Outcome (List EvictedMembership) × RedbRegistry :=
  db.commit do
    let expired ← collectExpired now db.expiries.toList
    let byRing := env.order.iter (groupByRing expired).toList
    let db := { db with rings := byRing.foldl rewriteRing db.rings }
    let db := expired.foldl (fun db entry => db.clear entry.1) db
    return (expired.map fun (_, ringName, peer) => ⟨ringName, peer⟩, db)

end RedbRegistry

/-- `impl Registry for RedbRegistry`, on a fresh file; closing and opening again
runs `openDatabase` on what was left. -/
instance [EndpointKeys] : Backend RedbRegistry where
  createRing := RedbRegistry.createRing
  addPeerToRing := RedbRegistry.addPeerToRing
  removePeerFromRing := RedbRegistry.removePeerFromRing
  listRingPeers := RedbRegistry.listRingPeers
  listRings := RedbRegistry.listRings
  removeRingFromResource := RedbRegistry.removeRingFromResource
  listResourceRings := RedbRegistry.listResourceRings
  addRingToResource := RedbRegistry.addRingToResource
  hasPermission := RedbRegistry.hasPermission
  evictExpired := RedbRegistry.evictExpired
  fresh := RedbRegistry.openDatabase Database.empty
  reopen db := RedbRegistry.openDatabase db.close

end IrohRings
