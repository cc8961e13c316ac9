import IrohRings.Registry

/-!
# IrohRings.Protocol

The wire format of `/iroh-rings/2` (`src/protocol/mod.rs`).

```text
Request (initiator peer -> gate)
 [ 2 B]  u16-le: resource id length (N)
 [ N B]  resource id bytes
 [ 1 B]  operation: 0x01 = Read, 0x02 = Write, 0x03 = Delete

Response (gate -> initiator peer)
 [ 1 B]  status: 0x00 = DENIED, 0x01 = ALLOWED
```
-/

namespace IrohRings

open Foundation

/-- Maximum number of bytes accepted for a resource id on the wire. -/
def maxResourceIdBytes : Nat := 256

/-- The wire byte of a permission. -/
def encodeOperation : Permission → UInt8
  | .read => 0x01
  | .write => 0x02
  | .delete => 0x03

/-- Parse a wire operation byte. -/
def parseOperation (byte : UInt8) : Except Error Permission :=
  if byte = 0x01 then .ok .read
  else if byte = 0x02 then .ok .write
  else if byte = 0x03 then .ok .delete
  else .error (.unknownOperationByte byte)

/-- Encode a resource request. The length is written as a `u16`. -/
def encodeRequest (resourceId : Bytes) (permission : Permission) : Except Error Bytes :=
  if resourceId.length > maxResourceIdBytes then .error (.resourceIdTooLong resourceId.length)
  else .ok (toLe 2 (resourceId.length % 65536) ++ resourceId ++ [encodeOperation permission])

/-- Gate response byte. -/
inductive Status
  | denied
  | allowed
  deriving DecidableEq, Repr

/-- `status as u8`. -/
def Status.toByte : Status → UInt8
  | .denied => 0x00
  | .allowed => 0x01

/-- `Status::try_from` -/
def Status.tryFrom (byte : UInt8) : Except Error Status :=
  if byte = 0x00 then .ok .denied
  else if byte = 0x01 then .ok .allowed
  else .error (.unknownStatusByte byte)

@[simp] theorem Status.tryFrom_toByte (status : Status) : tryFrom status.toByte = .ok status := by
  cases status <;> rfl

/-- An operation byte stands for one permission, or for none. -/
theorem parseOperation_eq_ok {byte : UInt8} {q : Permission} :
    parseOperation byte = .ok q ↔ byte = encodeOperation q := by
  constructor
  · intro h
    unfold parseOperation at h
    split at h
    · cases h
      assumption
    · split at h
      · cases h
        assumption
      · split at h
        · cases h
          assumption
        · cases h
  · intro heq
    subst heq
    cases q <;> decide

@[simp] theorem parseOperation_encodeOperation (q : Permission) :
    parseOperation (encodeOperation q) = .ok q :=
  parseOperation_eq_ok.mpr rfl

/-- What is no permission is an unknown operation. -/
theorem parseOperation_eq_error {op : UInt8} {e : Error} (h : parseOperation op = .error e) :
    e = .unknownOperationByte op := by
  unfold parseOperation at h
  split at h
  · cases h
  · split at h
    · cases h
    · split at h
      · cases h
      · exact (Except.error.inj h).symm

/-- The stream starts with a well-formed request, and `rest` follows it. -/
def Requests (bytes : Bytes) (resourceId : Bytes) (permission : Permission) (rest : Bytes) :
    Prop :=
  ∃ request, encodeRequest resourceId permission = .ok request ∧ bytes = request ++ rest

/-- What the bytes of a request are. -/
theorem requests_iff {bytes id rest : Bytes} {q : Permission} :
    Requests bytes id q rest ↔
      id.length ≤ maxResourceIdBytes ∧
        bytes = toLe 2 id.length ++ (id ++ encodeOperation q :: rest) := by
  have hsmall : id.length ≤ maxResourceIdBytes → id.length % 65536 = id.length := fun h =>
    Nat.mod_eq_of_lt (lt_of_le_of_lt h (by decide))
  constructor
  · intro hex
    rcases hex with ⟨request, hok, rfl⟩
    unfold encodeRequest at hok
    split at hok
    · cases hok
    · rename_i hlen
      have hle := Nat.le_of_not_lt hlen
      obtain rfl := Except.ok.inj hok
      refine ⟨hle, ?_⟩
      rw [hsmall hle]
      simp
  · intro hand
    rcases hand with ⟨hle, rfl⟩
    refine ⟨_, if_neg (Nat.not_lt.mpr hle), ?_⟩
    rw [hsmall hle]
    simp

end IrohRings
