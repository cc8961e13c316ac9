import Mathlib.Order.Fin.Basic
import IrohRings.Foundation.Ranges
import IrohRings.Protocol.Gate

/-!
# IrohRings.Transfers.Fs

`FsTransfer` (`src/transfers/fs.rs`): blobs from an `iroh-blobs` store, behind
the gate. What `iroh-blobs` does is a parameter (`FsStore`).
-/

namespace IrohRings

open Foundation

/-! ### The store -/

/-- `iroh_blobs::Hash`. -/
abbrev Hash : Type := Vector UInt8 32

/-- `iroh_blobs::BlobFormat`. -/
inductive BlobFormat
  | raw
  | hashSeq
  deriving DecidableEq, Repr

/-- What the transfer reads of `iroh_blobs::api::TagInfo`. -/
structure TagInfo where
  format : BlobFormat
  hash : Hash
  deriving DecidableEq, Repr

/-- `bao_tree::ChunkNum`, a `u64`. -/
def ChunkNum : Type := Fin (2 ^ 64)

namespace ChunkNum

instance : LinearOrder ChunkNum := Fin.instLinearOrder

instance : OrderBot ChunkNum where
  bot := (0 : Fin (2 ^ 64))
  bot_le c := Fin.zero_le c

instance : OrderTop ChunkNum where
  top := (⟨2 ^ 64 - 1, by decide⟩ : Fin (2 ^ 64))
  le_top c := Nat.le_pred_of_lt (Fin.isLt c)

/-- The number itself. -/
def toNat (c : ChunkNum) : Nat := Fin.val c

end ChunkNum

/-- `bao_tree::ChunkRanges`. -/
abbrev ChunkRanges : Type := Ranges ChunkNum

/-- An `iroh-blobs` store, as far as the transfer uses it. -/
structure FsStore where
  /-- `tags().list()`: the items of the stream it returns. -/
  listTags : Except AnyError (List (Except AnyError TagInfo))
  /-- `blobs().get_bytes(hash)` -/
  getBytes : Hash → Except AnyError Bytes
  /-- `HashSeq::try_from(bytes)` -/
  hashSeq : Bytes → Except AnyError (List Hash)
  /-- `blobs().export_bao(hash, ranges).write(send)` -/
  exportBao : Hash → ChunkRanges → SendStream → Except AnyError Unit × SendStream

/-- The items up to the first error. -/
def okPrefix {ε α : Type} : List (Except ε α) → List α
  | .ok a :: rest => a :: okPrefix rest
  | _ => []

/-- The tags that listing them yields. -/
def FsStore.tags (store : FsStore) : List TagInfo :=
  match store.listTags with
  | .ok items => okPrefix items
  | .error _ => []

/-! ### Chunk ranges on the wire -/

/-- Each range entry is two little-endian `u64` values. -/
def rangeEntryBytes : Nat := 16

/-- The loop of `encodeRangesWire`: two boundaries at a time, from the `i`-th on.
A last boundary without a partner is not written. -/
def encodeRangesLoop (boundaries : List ChunkNum) (out : Bytes) (i : Nat) : Bytes :=
  if h : i + 1 < boundaries.length then
    let out := out ++ toLe 8 boundaries[i].toNat
    let out := out ++ toLe 8 boundaries[i + 1].toNat
    encodeRangesLoop boundaries out (i + 2)
  else out
  termination_by boundaries.length - i

/-- Encode chunk-group ranges into wire bytes: the number of pairs of boundaries
**as a `u32`**, then the pairs. The debug assertion that the ranges are bounded
is off. -/
def encodeRangesWire (ranges : ChunkRanges) : Bytes :=
  let pairCount := UInt32.ofNat (ranges.boundaries.length / 2)
  encodeRangesLoop ranges.boundaries (toLe 4 pairCount.toNat) 0

/-- The little-endian `u64` at an offset. -/
def chunkNumAt (raw : Bytes) (offset : Nat) : ChunkNum :=
  ⟨ofLe ((raw.drop offset).take 8), lt_of_lt_of_le (ofLe_lt _)
    (Nat.pow_le_pow_right (by decide) (by simp) : (256 : Nat) ^ _ ≤ 256 ^ 8)⟩

/-- The loop of `decodeRangesWire`: `n` more entries, from the `i`-th on. -/
def decodeRangesLoop (raw : Bytes) (ranges : ChunkRanges) (i : Nat) :
    Nat → Except AnyError ChunkRanges
  | 0 => .ok ranges
  | n + 1 =>
    let base := i * rangeEntryBytes
    if base + rangeEntryBytes > raw.length then
      .error (.msg s!"range data truncated at index {i}")
    else
      let start := chunkNumAt raw base
      let stop := chunkNumAt raw (base + 8)
      decodeRangesLoop raw (ranges.union (.ofRange start stop)) (i + 1) n

/-- Decode chunk-group ranges from wire bytes. -/
def decodeRangesWire (count : Nat) (raw : Bytes) : Except AnyError ChunkRanges :=
  decodeRangesLoop raw .empty 0 count

/-- `u64::from_le_bytes(raw[start..stop].try_into().expect(..))`: nothing where
the source panics, on a slice out of range or one that is not eight bytes long. -/
def u64Slice (raw : Bytes) (start stop : Nat) : Option ChunkNum :=
  if start ≤ stop ∧ stop ≤ raw.length ∧ stop - start = 8 then some (chunkNumAt raw start)
  else none

/-- `decodeRangesLoop` with its panics: nothing where an index overflows a `usize`
or a slice is not there. -/
def decodeRangesSliced (raw : Bytes) (ranges : ChunkRanges) (i : Nat) :
    Nat → Option (Except AnyError ChunkRanges)
  | 0 => some (.ok ranges)
  | n + 1 =>
    let base := i * rangeEntryBytes
    if 2 ^ 64 ≤ base + rangeEntryBytes then none
    else if base + rangeEntryBytes > raw.length then
      some (.error (.msg s!"range data truncated at index {i}"))
    else do
      let start ← u64Slice raw base (base + 8)
      let stop ← u64Slice raw (base + 8) (base + rangeEntryBytes)
      decodeRangesSliced raw (ranges.union (.ofRange start stop)) (i + 1) n

/-! ### The transfer -/

/-- `resource_id.try_into()`: the id as a hash. -/
def hashOfId (resourceId : Bytes) : Option Hash :=
  if h : resourceId.length = 32 then some ⟨resourceId.toArray, by simpa using h⟩ else none

theorem hashOfId_eq_some {id : Bytes} {hash : Hash} :
    hashOfId id = some hash ↔ id = hash.toList := by
  unfold hashOfId
  split
  · rw [Option.some.injEq]
    constructor
    · intro h
      subst h
      simp
    · intro h
      subst h
      exact Vector.toList_inj.mp (by simp)
  · rename_i hlen
    refine iff_of_false nofun ?_
    intro h
    subst h
    exact hlen (by simp)

/-- The transfer: a blob store and a registry. -/
structure FsTransfer (σ : Type) where
  store : FsStore
  registry : σ

namespace FsTransfer

/-- `?` on a result that did not come from a stream. -/
def ofExcept {α : Type} (out : Except AnyError α) : StreamM α :=
  ExceptT.mk fun s => (out, s)

/-- `export_bao(hash, missing).write(send).await.context("bao streaming failed")` -/
def exportTo (store : FsStore) (hash : Hash) (missing : ChunkRanges) : StreamM Unit :=
  ExceptT.mk fun s =>
    let (out, send) := store.exportBao hash missing s.send
    (out.mapError (.context "bao streaming failed"), { s with send })

/-- `FsTransfer::transfer`: read which chunks the peer has, send the others. -/
def transfer {σ : Type} (t : FsTransfer σ) (resourceId : Bytes) : StreamM Unit := do
  let countBuf ← .readExact "reading range count" 4
  let rangeCount := ofLe countBuf.toList
  let rangeDataLen := rangeCount * rangeEntryBytes
  let rangeData ←
    if rangeDataLen > 0 then do
      let buf ← StreamM.readExact "reading ranges" rangeDataLen
      pure buf.toList
    else pure []
  let alreadyHave ← ofExcept (decodeRangesWire rangeCount rangeData)
  let missing := Ranges.all.diff alreadyHave
  match hashOfId resourceId with
  | none =>
    throw (.context "resource_id must be 32 bytes" (.msg "could not convert slice to array"))
  | some hash => exportTo t.store hash missing

variable [EndpointKeys] {σ : Type} [Registry σ]

/-- `registry.has_permission(peer, id, Permission::Read).unwrap_or(false)`, for
a registry that answers. -/
def mayRead (env : Env) (t : FsTransfer σ) (peer : EndpointId) (resourceId : Bytes) : Bool :=
  match Registry.hasPermission env t.registry peer resourceId .read with
  | .ok b => b
  | .error _ => false

/-- The loop over the stream of tags, which ends at the first error item. -/
def scanTags (env : Env) (t : FsTransfer σ) (peer : EndpointId) (hash : Hash) :
    List (Except AnyError TagInfo) → Bool
  | .ok info :: rest =>
    if info.format ≠ .hashSeq then t.scanTags env peer hash rest
    else if ¬ t.mayRead env peer info.hash.toList then t.scanTags env peer hash rest
    else
      match t.store.getBytes info.hash with
      | .error _ => t.scanTags env peer hash rest
      | .ok bytes =>
        match t.store.hashSeq bytes with
        | .error _ => t.scanTags env peer hash rest
        | .ok seq => if seq.any (· = hash) then true else t.scanTags env peer hash rest
  | _ => false

/-- Is `hash` referenced by any collection the peer may access? -/
def isMemberOfAllowedCollection (env : Env) (t : FsTransfer σ) (peer : EndpointId)
    (hash : Hash) : Bool :=
  match t.store.listTags with
  | .error _ => false
  | .ok items => t.scanTags env peer hash items

/-- `FsTransfer::can_access`. -/
def canAccess (env : Env) (t : FsTransfer σ) (peer : EndpointId) (resourceId : Bytes) : Bool :=
  if t.mayRead env peer resourceId then true
  else
    match hashOfId resourceId with
    | none => false
    | some hash => t.isMemberOfAllowedCollection env peer hash

end FsTransfer

instance [EndpointKeys] {σ : Type} [Registry σ] : Transfer (FsTransfer σ) where
  canAccess := FsTransfer.canAccess
  transfer := FsTransfer.transfer

end IrohRings
