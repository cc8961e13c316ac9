import IrohRings.Registry

/-!
# IrohRings.Backends.Redb.Codec

How the redb backend lays its data out in keys and values
(`src/backends/redb/mod.rs`, from `member_key` on). This module holds the
functions of the source; that the decoders invert the encoders is
`IrohRings.Backends.Redb.CodecSound`.
-/

namespace IrohRings

open Foundation

/-! ### Member lists -/

/-- Member peer ids, 32 bytes each, one after the other. -/
def encodePeerIds (ids : List PeerBytes) : Bytes := concatChunks ids

/-- `raw.as_chunks::<32>().0`: a trailing partial id is ignored. -/
def decodePeerIds (raw : Bytes) : List PeerBytes := asChunks 32 raw

/-! ### Keys of the per-membership tables -/

/-- Key of a membership in `LABELS` and `EXPIRIES`: the ring name, a NUL, the
peer id. -/
def memberKeyOf (ringName : String) (peer : PeerBytes) : Bytes :=
  asBytes ringName ++ [0] ++ peer.toList

section

variable [EndpointKeys]

def memberKey (ringName : String) (peer : EndpointId) : Bytes :=
  memberKeyOf ringName peer.asBytes

/-- The error of `splitMemberKey`. -/
def malformedKey (key : Bytes) : Fault :=
  .err (.storage s!"malformed member key ({key.length} bytes)")

/-- Split a stored key: the peer id is the last 32 bytes, the byte before it the
separator (its value is not looked at), and the ring name everything before. -/
def splitMemberKey (key : Bytes) : Outcome (String × EndpointId) :=
  if key.length < 33 then .error (malformedKey key)
  else
    let ringAndSep := key.take (key.length - 32)
    let peerBytes := key.drop (key.length - 32)
    match fromUtf8 (ringAndSep.take (ringAndSep.length - 1)) with
    | none => .error (malformedKey key)
    | some ringName =>
      if h : peerBytes.toArray.size = 32 then
        match EndpointId.fromBytes ⟨peerBytes.toArray, h⟩ with
        | .ok peer => .ok (ringName, peer)
        | .error _ => .error (malformedKey key)
      else .error (malformedKey key)

end

/-! ### Expiries -/

/-- A stored expiry: seconds since the UNIX epoch, and nanoseconds. -/
abbrev ExpiryRow : Type := UInt64 × UInt32

/-- `t.duration_since(UNIX_EPOCH).unwrap_or_default()` as seconds and
nanoseconds: times before the epoch are clamped to it. -/
def encodeExpiry (t : SystemTime) : ExpiryRow :=
  let d := t.sinceEpoch.toNat
  (UInt64.ofNat (d / nanosPerSec), UInt32.ofNat (d % nanosPerSec))

/-- `UNIX_EPOCH.checked_add(Duration::new(secs, nanos))`. `Duration::new` carries
whole seconds out of `nanos` and panics when that overflows. -/
def decodeExpiry (row : ExpiryRow) : Outcome SystemTime :=
  let secs := row.1.toNat
  let nanos := row.2.toNat
  if 2 ^ 64 ≤ secs + nanos / nanosPerSec then .error (.panic "overflow in Duration::new")
  else if h : secs * nanosPerSec + nanos < 2 ^ 63 * nanosPerSec then
    .ok ⟨(secs * nanosPerSec + nanos : Nat), by unfold nanosPerSec; omega,
      by exact_mod_cast h⟩
  else
    .err (.storage s!"stored expiry ({secs}s, {nanos}ns since epoch) overflows SystemTime")

/-! ### Permissions -/

/-- Key of an association in `RESOURCE_RING_PERMS`: the length of the resource id
**as a `u16`**, the resource id, the ring name. -/
def permKey (resourceId : Bytes) (ringName : String) : Bytes :=
  let len := UInt16.ofNat resourceId.length
  toLe 2 len.toNat ++ resourceId ++ asBytes ringName

def permissionBit : Permission → UInt8
  | .read => 0b001
  | .write => 0b010
  | .delete => 0b100

def permsToByte (perms : List Permission) : UInt8 :=
  perms.foldl (fun bits p => bits ||| permissionBit p) 0

def byteToPerms (bits : UInt8) : List Permission :=
  let perms := []
  let perms := if bits &&& 0b001 ≠ 0 then perms ++ [Permission.read] else perms
  let perms := if bits &&& 0b010 ≠ 0 then perms ++ [Permission.write] else perms
  if bits &&& 0b100 ≠ 0 then perms ++ [Permission.delete] else perms

/-! ### Ring name lists -/

/-- The loop of `encodeRingNames`: the buffer, and whether nothing was written
yet. -/
def encodeRingNamesStep : Bytes × Bool → String → Bytes × Bool
  | (buf, first), name => ((if first then buf else buf ++ [0]) ++ asBytes name, false)

/-- The ring names, with a NUL between any two. -/
def encodeRingNames (names : List String) : Bytes :=
  (names.foldl encodeRingNamesStep ([], true)).1

/-- Length of the part of an invalid UTF-8 sequence that one replacement
character stands for: the longest prefix of a well-formed sequence, or one byte. -/
def invalidPrefixLen : Bytes → Nat
  | b0 :: b1 :: rest =>
    let (low, high) : UInt8 × UInt8 :=
      if b0 == 0xE0 then (0xA0, 0xBF) else if b0 == 0xED then (0x80, 0x9F)
      else if b0 == 0xF0 then (0x90, 0xBF) else if b0 == 0xF4 then (0x80, 0x8F)
      else (0x80, 0xBF)
    if b0 < 0xE0 ∨ 0xF4 < b0 ∨ b1 < low ∨ high < b1 then 1
    else if b0 < 0xF0 then 2
    else match rest with
      | b2 :: _ => if b2 < 0x80 ∨ 0xBF < b2 then 2 else 3
      | [] => 2
  | _ => 1

/-- The characters of a byte string, a replacement character standing for each
maximal invalid part. UTF-8 is prefix-free, so the shortest valid prefix is one
character. -/
def lossyChars : Nat → Bytes → List Char
  | 0, _ => []
  | _, [] => []
  | fuel + 1, bytes =>
    match [1, 2, 3, 4].findSome? fun k =>
        if k ≤ bytes.length then (fromUtf8 (bytes.take k)).map fun s => (s.toList, k)
        else none with
    | some (cs, k) => cs ++ lossyChars fuel (bytes.drop k)
    | none => '\ufffd' :: lossyChars fuel (bytes.drop (invalidPrefixLen bytes))

/-- `String::from_utf8_lossy`. -/
def fromUtf8Lossy (bytes : Bytes) : String :=
  match fromUtf8 bytes with
  | some s => s
  | none => String.ofList (lossyChars bytes.length bytes)

def decodeRingNames (raw : Bytes) : List String :=
  if raw.isEmpty then []
  else (raw.splitOn 0).map fromUtf8Lossy

end IrohRings
