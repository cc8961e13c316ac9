import IrohRings.Registry

/-!
# IrohRings.Backends.Memory

`InMemoryRegistry` (`src/backends/memory.rs`): the registry as four hash maps.

A hash map is modelled by its contents (`HashMap`); where the source iterates
over one, the entries come in the order the environment says. The lock around
the maps is left out: every method holds it from beginning to end.
-/

namespace IrohRings

open Foundation

/-- The contents of a `std::collections::HashMap`. -/
abbrev HashMap (κ ν : Type) [Ord κ] : Type := Table κ ν

/-- A `(ring_name, peer_id)` pair, the key of the per-membership maps. -/
abbrev MemberId : Type := String × PeerBytes

instance : Ord MemberId := lexOrd

instance : Std.TransOrd MemberId := inferInstance

/-- `InMemoryRegistry`'s maps. -/
structure Inner where
  rings : HashMap String (List PeerBytes)
  labels : HashMap MemberId String
  /-- The instant a membership expires; absent means never. -/
  expiries : HashMap MemberId SystemTime
  /-- The ordered list of `(ring_name, permissions)` pairs of a resource. -/
  resourceRings : HashMap Bytes (List (String × List Permission))

namespace Inner

/-- `InMemoryRegistry::new`: only the open ring. -/
def new : Inner where
  rings := (∅ : HashMap String (List PeerBytes)).insert openRingName []
  labels := ∅
  expiries := ∅
  resourceRings := ∅

/-- Has the membership of `peer` in `ringName` expired as of `now`? -/
def isExpired (inner : Inner) (ringName : String) (peer : PeerBytes) (now : SystemTime) : Bool :=
  inner.expiries[(ringName, peer)]?.any (· ≤ now)

/-- Drop the label and the expiry of a membership. -/
def clear (inner : Inner) (key : MemberId) : Inner :=
  { inner with labels := inner.labels.erase key, expiries := inner.expiries.erase key }

def createRing (inner : Inner) (ringName : String) : Outcome Unit × Inner :=
  match Ring.new ringName with
  | .error e => (.err e, inner)
  | .ok ring =>
    if ring.isOpen then (.err (.ringNameReserved openRingName), inner)
    else if inner.rings.contains ringName then (.err (.ringAlreadyExists ringName), inner)
    else (.ok (), { inner with rings := inner.rings.insert ringName [] })

/-- Set the label and the expiry that were given; `none` leaves the existing
value untouched. -/
def annotate (inner : Inner) (key : MemberId) (label : Option String)
    (expiresAt : Option SystemTime) : Inner :=
  let inner := match label with
    | some lbl => { inner with labels := inner.labels.insert key lbl }
    | none => inner
  match expiresAt with
  | some t => { inner with expiries := inner.expiries.insert key t }
  | none => inner

/-- Make `peer` a member of a ring with the given members. Re-adding an expired
membership starts fresh: the stale label and expiry are dropped. -/
def enroll (inner : Inner) (ringName : String) (members : List PeerBytes) (peer : PeerBytes)
    (now : SystemTime) : Inner :=
  if ¬ peer ∈ members then
    { inner with rings := inner.rings.insert ringName (members ++ [peer]) }
  else if inner.isExpired ringName peer now then inner.clear (ringName, peer)
  else inner

variable [EndpointKeys]

def addPeerToRing (env : Env) (inner : Inner) (ringName : String) (peer : EndpointId)
    (label : Option String) (expiresAt : Option SystemTime) : Outcome Unit × Inner :=
  match inner.rings[ringName]? with
  | none => (.err (.ringNotFound ringName), inner)
  | some members =>
    (.ok (), (inner.enroll ringName members peer.asBytes env.now).annotate
      (ringName, peer.asBytes) label expiresAt)

def removePeerFromRing (inner : Inner) (ringName : String) (peer : EndpointId) :
    Outcome Unit × Inner :=
  match inner.rings[ringName]? with
  | none => (.err (.ringNotFound ringName), inner)
  | some members =>
    let members := members.filter (· ≠ peer.asBytes)
    (.ok (), { inner with rings := inner.rings.insert ringName members }.clear
      (ringName, peer.asBytes))

def listRingPeers (env : Env) (inner : Inner) (ringName : String) :
    Outcome (List RingMember) :=
  match inner.rings[ringName]? with
  | none => .err (.ringNotFound ringName)
  | some members =>
    -- an expired membership is not listed, but stays in the maps
    (members.filter fun b => ¬ inner.isExpired ringName b env.now).mapM fun b => do
      let peer ← decodeEndpointId b
      let key := (ringName, b)
      return ⟨peer, inner.labels[key]?, inner.expiries[key]?⟩

def listRings (env : Env) (inner : Inner) : Outcome (List Ring) := do
  let names := (env.order.iter inner.rings.keys).filter (· ≠ openRingName)
  let rings ← names.mapM (Ring.newExpect "invariant: ring names are always valid")
  return Ring.newOpen :: rings

def removeRingFromResource (inner : Inner) (resourceId : Bytes) : Outcome Unit × Inner :=
  (.ok (), { inner with resourceRings := inner.resourceRings.erase resourceId })

def listResourceRings (inner : Inner) (resourceId : Bytes) :
    Outcome (List (Ring × List Permission)) :=
  match inner.resourceRings[resourceId]? with
  | none => .ok []
  | some entries => entries.mapM fun entry => do
      let ring ← Ring.newExpect "invariant: ring names are always valid" entry.1
      return (ring, entry.2)

def addRingToResource (inner : Inner) (resourceId : Bytes) (ringName : String)
    (permissions : List Permission) : Outcome Unit × Inner :=
  match validateRingPermissions ringName permissions with
  | .error e => (.err e, inner)
  | .ok () =>
    if ¬ inner.rings.contains ringName then (.err (.ringNotFound ringName), inner)
    else
      let existing := inner.resourceRings[resourceId]?.getD []
      let updated := computeResourceRings existing ringName permissions
      (.ok (), { inner with resourceRings := inner.resourceRings.insert resourceId updated })

/-- The loop of `hasPermission` over a resource's entries. -/
def scanEntries (inner : Inner) (now : SystemTime) (peer : PeerBytes)
    (permission : Permission) : List (String × List Permission) → Bool
  | [] => false
  | (name, perms) :: rest =>
    if ¬ permission ∈ perms then inner.scanEntries now peer permission rest
    -- the open ring lets everyone in, members or not
    else if name = openRingName then true
    else
      match inner.rings[name]? with
      | some members =>
        if peer ∈ members ∧ ¬ inner.isExpired name peer now then true
        else inner.scanEntries now peer permission rest
      | none => inner.scanEntries now peer permission rest

def hasPermission (env : Env) (inner : Inner) (peer : EndpointId) (resourceId : Bytes)
    (permission : Permission) : Outcome Bool :=
  match inner.resourceRings[resourceId]? with
  | none => .ok false
  | some entries =>
    if entries.isEmpty then .ok false
    else .ok (inner.scanEntries env.now peer.asBytes permission entries)

/-- One round of the eviction loop: forget the membership in all three maps. -/
def evictOne (inner : Inner) (key : MemberId) : Inner :=
  let inner := match inner.rings[key.1]? with
    | some members =>
      { inner with rings := inner.rings.insert key.1 (members.filter (· ≠ key.2)) }
    | none => inner
  inner.clear key

/-- The eviction loop over the collected keys. The maps are changed before the
peer id is decoded, so an error leaves the rounds done so far in place. -/
def evictLoop (inner : Inner) : List MemberId → List EvictedMembership →
    Outcome (List EvictedMembership) × Inner
  | [], evicted => (.ok evicted, inner)
  | key :: rest, evicted =>
    let inner := inner.evictOne key
    match decodeEndpointId key.2 with
    | .error e => (.error e, inner)
    | .ok peer => inner.evictLoop rest (evicted ++ [⟨key.1, peer⟩])

def evictExpired (env : Env) (inner : Inner) (now : SystemTime) :
    Outcome (List EvictedMembership) × Inner :=
  let expiredKeys := ((env.order.iter inner.expiries.toList).filter (·.2 ≤ now)).map (·.1)
  inner.evictLoop expiredKeys []

end Inner

/-- `impl Registry for InMemoryRegistry`. An in-memory registry lives as long
as its process, so there is nothing to reopen. -/
instance [EndpointKeys] : Backend Inner where
  createRing := Inner.createRing
  addPeerToRing := Inner.addPeerToRing
  removePeerFromRing := Inner.removePeerFromRing
  listRingPeers := Inner.listRingPeers
  listRings := Inner.listRings
  removeRingFromResource := Inner.removeRingFromResource
  listResourceRings := Inner.listResourceRings
  addRingToResource := Inner.addRingToResource
  hasPermission := Inner.hasPermission
  evictExpired := Inner.evictExpired
  fresh := Inner.new
  reopen := id

end IrohRings
