import IrohRings.Foundation.Tables
import IrohRings.Ring
import IrohRings.SystemTime

/-!
# IrohRings.Registry

The `Registry` trait and the data it speaks about (`src/registry.rs`).

Two things of the host are explicit here. A call that reads `SystemTime::now()`
or walks a `HashMap` takes an `Env`: the clock reading it gets, and the order in
which hash maps yield their entries. And `EndpointId` comes from `iroh`, so the
check that 32 bytes are a public key is a parameter (`EndpointKeys`).

A backend is a state type with the ten methods of the trait (`Registry`), a
fresh state and a way to be closed and opened again (`Backend`). `Call` and
`Answer` turn method calls into data, which is what runs and histories of calls
are made of.
-/

namespace IrohRings

open Foundation

/-! ### Permissions -/

/-- An operation a peer may request on a resource. -/
inductive Permission
  | read
  | write
  | delete
  deriving DecidableEq, Repr

/-- First step of `addRingToResource` in both backends: the permission set is
non-empty, and the open ring is only paired with `Read`. -/
def validateRingPermissions (ringName : String) (permissions : List Permission) :
    Except Error Unit :=
  if permissions.isEmpty then .error .emptyPermissionSet
  else if ringName = openRingName ∧ permissions.any (· ≠ .read) then .error .openRingReadOnly
  else .ok ()

/-- Replace the permission set of the first entry of `ringName`, or append one. -/
def computeResourceRings : List (String × List Permission) → String → List Permission →
    List (String × List Permission)
  | [], ringName, permissions => [(ringName, permissions)]
  | entry :: rest, ringName, permissions =>
    if entry.1 = ringName then (entry.1, permissions) :: rest
    else entry :: computeResourceRings rest ringName permissions

theorem validateRingPermissions_eq_ok {ringName : String} {permissions : List Permission} :
    validateRingPermissions ringName permissions = .ok () ↔
      permissions ≠ [] ∧ (ringName = openRingName → ∀ q ∈ permissions, q = .read) := by
  unfold validateRingPermissions
  split
  · rename_i h
    simp [List.isEmpty_iff.mp h]
  · rename_i h
    have hne : permissions ≠ [] := by simpa using h
    split
    · rename_i hopen
      obtain ⟨rfl, hany⟩ := hopen
      obtain ⟨q, hq, hread⟩ := List.any_eq_true.mp hany
      simp only [reduceCtorEq, false_iff, not_and, forall_const]
      exact fun _ hall => absurd (hall q hq) (by simpa using hread)
    · rename_i hopen
      simp only [List.any_eq_true, not_and, not_exists] at hopen
      refine ⟨fun _ => ⟨hne, fun ho q hq => ?_⟩, fun _ => rfl⟩
      simpa using hopen ho q hq

/-- The names of an association list only ever gain the new ring, at the end. -/
theorem map_fst_computeResourceRings (es : List (String × List Permission)) (r : String)
    (ps : List Permission) :
    (computeResourceRings es r ps).map Prod.fst =
      if r ∈ es.map Prod.fst then es.map Prod.fst else es.map Prod.fst ++ [r] := by
  induction es with
  | nil => simp [computeResourceRings]
  | cons e es ih =>
      rw [computeResourceRings]
      by_cases he : e.1 = r
      · simp [he]
      · rw [if_neg he, List.map_cons, ih, List.map_cons]
        have he' : r ≠ e.1 := fun h => he h.symm
        by_cases hr : r ∈ es.map Prod.fst
        · rw [if_pos hr, if_pos (List.mem_cons_of_mem _ hr)]
        · rw [if_neg hr, if_neg (by simpa [he'] using hr), List.cons_append]

theorem lookup_computeResourceRings (es : List (String × List Permission)) (r r' : String)
    (ps : List Permission) :
    (computeResourceRings es r ps).lookup r' = if r' = r then some ps else es.lookup r' := by
  induction es with
  | nil =>
      rw [computeResourceRings, List.lookup_cons]
      by_cases h : r' = r
      · simp [h]
      · simp [h, beq_eq_false_iff_ne.mpr h]
  | cons e es ih =>
      obtain ⟨n, qs⟩ := e
      rw [computeResourceRings]
      by_cases hn : n = r
      · subst hn
        rw [if_pos rfl, List.lookup_cons, List.lookup_cons]
        by_cases h : r' = n
        · simp [h]
        · simp [h, beq_eq_false_iff_ne.mpr h]
      · rw [if_neg hn, List.lookup_cons, List.lookup_cons, ih]
        by_cases h : r' = n
        · subst h
          simp [hn]
        · simp [beq_eq_false_iff_ne.mpr h]

/-! ### Peers -/

/-- The 32 bytes of a peer id. -/
abbrev PeerBytes : Type := Vector UInt8 32

instance : LawfulBEq PeerBytes := inferInstance

/-- What `iroh` decides about peer ids: which 32-byte strings are public keys,
and the text of the error for one that is not. -/
class EndpointKeys where
  isKey : PeerBytes → Bool
  keyError : PeerBytes → String

variable [EndpointKeys]

/-- `iroh::EndpointId`: bytes that passed the key check. -/
structure EndpointId where
  asBytes : PeerBytes
  isKey : EndpointKeys.isKey asBytes = true
  deriving DecidableEq

@[ext] theorem EndpointId.ext {p p' : EndpointId} (h : p.asBytes = p'.asBytes) : p = p' := by
  cases p; cases p'; cases h; rfl

/-- `EndpointId::from_bytes`. -/
def EndpointId.fromBytes (bytes : PeerBytes) : Except String EndpointId :=
  if h : EndpointKeys.isKey bytes = true then .ok ⟨bytes, h⟩
  else .error (EndpointKeys.keyError bytes)

/-- Parse peer-id bytes read back from storage. -/
def decodeEndpointId (bytes : PeerBytes) : Outcome EndpointId :=
  match EndpointId.fromBytes bytes with
  | .ok peer => .ok peer
  | .error e => .err (.storage e)

@[simp] theorem EndpointId.fromBytes_asBytes (p : EndpointId) :
    EndpointId.fromBytes p.asBytes = .ok p := by
  rw [EndpointId.fromBytes, dif_pos p.isKey]

theorem EndpointId.fromBytes_eq_ok {bytes : PeerBytes} {p : EndpointId} :
    EndpointId.fromBytes bytes = .ok p ↔ bytes = p.asBytes := by
  constructor
  · intro h
    unfold EndpointId.fromBytes at h
    split at h
    · rw [← Except.ok.inj h]
    · cases h
  · intro heq
    subst heq
    exact EndpointId.fromBytes_asBytes p

@[simp] theorem decodeEndpointId_asBytes (p : EndpointId) :
    decodeEndpointId p.asBytes = .ok p := by
  simp [decodeEndpointId]

/-- The Ed25519 base point, as it is encoded: a public key. -/
def basePointBytes : PeerBytes := ⟨(0x58 :: List.replicate 31 0x66).toArray, by decide⟩

/-- The key check as far as concrete runs need it: one key is known. -/
abbrev EndpointKeys.basePoint : EndpointKeys where
  isKey bytes := decide (bytes = basePointBytes)
  keyError _ := "invalid public key"

/-- The peer whose key is the base point. -/
def EndpointId.basePoint : @EndpointId EndpointKeys.basePoint :=
  @EndpointId.mk EndpointKeys.basePoint basePointBytes (decide_eq_true rfl)

/-! ### Listed entries -/

/-- A peer's membership in a ring, as returned by `listRingPeers`. -/
@[ext]
structure RingMember where
  peer : EndpointId
  label : Option String
  expiresAt : Option SystemTime

/-- A membership `evictExpired` removed. -/
structure EvictedMembership where
  ringName : String
  peer : EndpointId

/-- A report is determined by the ring and the peer's bytes. -/
theorem EvictedMembership.id_injective :
    Function.Injective fun m : EvictedMembership => (m.ringName, m.peer.asBytes) := by
  rintro ⟨r, p⟩ ⟨r', p'⟩ h
  obtain ⟨hr, hp⟩ := Prod.mk.inj h
  exact congr (congrArg EvictedMembership.mk hr) (EndpointId.ext hp)

/-! ### The host environment of a call -/

/-- The order a `HashMap` yields its entries in: some permutation of them. -/
structure HashOrder where
  iter : {α : Type} → List α → List α
  perm : ∀ {α : Type} (l : List α), (iter l).Perm l

/-- The order that yields entries as they come. -/
def HashOrder.id : HashOrder := ⟨fun l => l, fun l => List.Perm.refl l⟩

/-- What a call gets from the host: `SystemTime::now()` and the iteration order
of hash maps. -/
structure Env where
  now : SystemTime
  order : HashOrder

/-- A host whose clock stands at the epoch. -/
def Env.atEpoch : Env := ⟨unixEpoch, HashOrder.id⟩

/-- A host whose clock stands at some seconds after the epoch. -/
def Env.after (secs : UInt32) : Env := ⟨.afterEpoch secs, HashOrder.id⟩

/-! ### The trait -/

/-- The `Registry` trait. A method with `&self` that writes returns the next
state; one that only reads returns its outcome alone. -/
class Registry (σ : Type) where
  createRing : σ → String → Outcome Unit × σ
  addPeerToRing : Env → σ → String → EndpointId → Option String → Option SystemTime →
    Outcome Unit × σ
  removePeerFromRing : σ → String → EndpointId → Outcome Unit × σ
  listRingPeers : Env → σ → String → Outcome (List RingMember)
  listRings : Env → σ → Outcome (List Ring)
  removeRingFromResource : σ → Bytes → Outcome Unit × σ
  listResourceRings : σ → Bytes → Outcome (List (Ring × List Permission))
  addRingToResource : σ → Bytes → String → List Permission → Outcome Unit × σ
  hasPermission : Env → σ → EndpointId → Bytes → Permission → Outcome Bool
  evictExpired : Env → σ → SystemTime → Outcome (List EvictedMembership) × σ

/-- A call of a registry method, with its arguments. -/
inductive Call
  | createRing (ringName : String)
  | addPeerToRing (ringName : String) (peer : EndpointId) (label : Option String)
      (expiresAt : Option SystemTime)
  | removePeerFromRing (ringName : String) (peer : EndpointId)
  | listRingPeers (ringName : String)
  | listRings
  | removeRingFromResource (resourceId : Bytes)
  | listResourceRings (resourceId : Bytes)
  | addRingToResource (resourceId : Bytes) (ringName : String)
      (permissions : List Permission)
  | hasPermission (peer : EndpointId) (resourceId : Bytes) (permission : Permission)
  | evictExpired (now : SystemTime)

/-- What a call came back with. -/
inductive Answer
  | unit (out : Outcome Unit)
  | members (out : Outcome (List RingMember))
  | rings (out : Outcome (List Ring))
  | resourceRings (out : Outcome (List (Ring × List Permission)))
  | granted (out : Outcome Bool)
  | evicted (out : Outcome (List EvictedMembership))

/-- Perform a call on a registry. -/
def Registry.perform {σ : Type} [Registry σ] (env : Env) (s : σ) : Call → Answer × σ
  | .createRing ringName =>
    let (out, s') := createRing s ringName
    (.unit out, s')
  | .addPeerToRing ringName peer label expiresAt =>
    let (out, s') := addPeerToRing env s ringName peer label expiresAt
    (.unit out, s')
  | .removePeerFromRing ringName peer =>
    let (out, s') := removePeerFromRing s ringName peer
    (.unit out, s')
  | .listRingPeers ringName => (.members (listRingPeers env s ringName), s)
  | .listRings => (.rings (listRings env s), s)
  | .removeRingFromResource resourceId =>
    let (out, s') := removeRingFromResource s resourceId
    (.unit out, s')
  | .listResourceRings resourceId => (.resourceRings (listResourceRings s resourceId), s)
  | .addRingToResource resourceId ringName permissions =>
    let (out, s') := addRingToResource s resourceId ringName permissions
    (.unit out, s')
  | .hasPermission peer resourceId permission =>
    (.granted (hasPermission env s peer resourceId permission), s)
  | .evictExpired now =>
    let (out, s') := evictExpired env s now
    (.evicted out, s')

/-! ### Runs -/

/-- A registry together with its life cycle: the state a fresh one starts in,
and what closing and opening it again does to the state. -/
class Backend (σ : Type) extends Registry σ where
  fresh : σ
  reopen : σ → σ

/-- What can happen to a backend: a call, or being closed and opened again. -/
inductive Event
  | call (env : Env) (c : Call)
  | reopen

/-- A call that was made, the environment it ran in, and its answer. -/
structure Record where
  env : Env
  call : Call
  answer : Answer

/-- The calls made so far, **latest first**. -/
abbrev History : Type _ := List Record

/-- Let one event happen, recording the call if it is one. -/
def Backend.record {σ : Type} [Backend σ] : History × σ → Event → History × σ
  | (h, s), .call env c =>
    let (answer, s') := Registry.perform env s c
    (⟨env, c, answer⟩ :: h, s')
  | (h, s), .reopen => (h, Backend.reopen s)

/-- A fresh backend, with nothing recorded yet. -/
def Backend.start (σ : Type) [Backend σ] : History × σ := ([], Backend.fresh)

/-- The run of a fresh backend through the events: its history and final state. -/
def Backend.run (σ : Type) [Backend σ] (events : List Event) : History × σ :=
  events.foldl Backend.record (Backend.start σ)

/-- A run to look at: a ring, its one member, a resource the ring may write to;
then the registry is closed and opened again, and asked. -/
def sampleRun : List (@Event EndpointKeys.basePoint) :=
  letI := EndpointKeys.basePoint
  [.call Env.atEpoch (.createRing "team"),
    .call Env.atEpoch (.addPeerToRing "team" EndpointId.basePoint (some "laptop") none),
    .call Env.atEpoch (.addRingToResource [0x61] "team" [.read, .write]),
    .reopen,
    .call Env.atEpoch (.hasPermission EndpointId.basePoint [0x61] .write)]

end IrohRings
