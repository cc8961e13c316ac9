import IrohRings.Protocol
import IrohRings.Foundation.Streams

/-!
# IrohRings.Protocol.Gate

`RingGate` and the `Transfer` trait (`src/protocol/gate.rs`).

`handleRequest` serves one stream: it reads a request, decides, answers with a
status byte and, if access is granted, hands both halves of the stream to the
transfer. It runs on an `Exchange`, which holds the two halves and the log of
the transfers that were invoked, each with the streams as they were handed over.
The registry is asked about a request, by the gate and by the transfer, in one
environment.
-/

namespace IrohRings

open Foundation

/-- `anyhow::Error`, as far as the gate and the transfers build one. -/
inductive AnyError
  | msg (text : String)
  | context (text : String) (cause : AnyError)
  | read (fault : ReadFault)
  | write (fault : WriteFault)
  deriving DecidableEq, Repr

/-- How serving a request can end early: an error, or a panic of the task. -/
inductive GateFault
  | err (e : AnyError)
  | panic (message : String)
  deriving DecidableEq, Repr

/-- Both halves of a stream. -/
structure Streams where
  send : SendStream
  recv : RecvStream
  deriving DecidableEq, Repr

/-- A computation on a stream. -/
abbrev StreamM (α : Type) : Type := ExceptT AnyError (StateM Streams) α

namespace StreamM

/-- `recv.read_exact(&mut buf).await.context(context)?` -/
def readExact (context : String) (n : Nat) : StreamM (Vector UInt8 n) :=
  ExceptT.mk fun s =>
    let (out, recv) := s.recv.readExact n
    (out.mapError fun e => .context context (.read e), { s with recv })

/-- `send.write_all(data).await?` -/
def writeAll (data : Bytes) : StreamM Unit :=
  ExceptT.mk fun s =>
    let (out, send) := s.send.writeAll data
    (out.mapError .write, { s with send })

/-- `send.finish()?` -/
def finish : StreamM Unit :=
  ExceptT.mk fun s =>
    let (out, send) := s.send.finish
    (out.mapError .write, { s with send })

end StreamM

variable [EndpointKeys]

/-- The `Transfer` trait: what runs after the gate grants access, and the
alternative way to get it. -/
class Transfer (τ : Type) where
  canAccess : Env → τ → EndpointId → Bytes → Bool
  transfer : τ → Bytes → StreamM Unit

/-- The gate: a registry and a transfer. -/
structure RingGate (σ τ : Type) where
  registry : σ
  transfer : τ

/-- The streams of a request, and the transfers invoked so far: the resource
each was for, and the streams it was handed. -/
structure Exchange extends Streams where
  transfers : List (Bytes × Streams)
  deriving DecidableEq, Repr

/-- A computation on an exchange. -/
abbrev GateM (α : Type) : Type := ExceptT GateFault (StateM Exchange) α

namespace GateM

/-- `?` on a result that did not come from a stream. -/
def ofExcept {α : Type} : Except AnyError α → GateM α
  | .ok a => pure a
  | .error e => throw (.err e)

/-- `?` on an operation on the streams. -/
def ofStream {α : Type} (m : StreamM α) : GateM α :=
  ExceptT.mk fun x =>
    let (out, streams) := m x.toStreams
    (out.mapError .err, { x with toStreams := streams })

/-- `registry.has_permission(..).unwrap_or(false)` -/
def unwrapOrFalse : Outcome Bool → GateM Bool
  | .ok b => pure b
  | .error (.err _) => pure false
  | .error (.panic message) => throw (.panic message)

/-- `transfer.transfer(resource_id, send, recv).await`, logged. -/
def invoke {τ : Type} [Transfer τ] (transfer : τ) (resourceId : Bytes) :
    GateM (Except AnyError Unit) :=
  ExceptT.mk fun x =>
    let (out, streams) := Transfer.transfer transfer resourceId x.toStreams
    (.ok out, ⟨streams, x.transfers ++ [(resourceId, x.toStreams)]⟩)

end GateM

/-- `parse_resource_id_len`: refuse a length before anything is allocated. -/
def parseResourceIdLen (buf : Vector UInt8 2) : Except AnyError Nat :=
  let len := ofLe buf.toList
  if len ≤ maxResourceIdBytes then .ok len
  else .error (.msg s!"resource id length {len} exceeds maximum {maxResourceIdBytes}")

namespace RingGate

variable {σ τ : Type} [Registry σ] [Transfer τ]

/-- Read a request: the resource id and the operation byte. -/
def readRequest : GateM (Bytes × UInt8) := do
  let lenBuf ← .ofStream (.readExact "reading resource_id length" 2)
  let len ← .ofExcept (parseResourceIdLen lenBuf)
  let resourceId ← .ofStream (.readExact "reading resource_id" len)
  let opBuf ← .ofStream (.readExact "reading operation byte" 1)
  return (resourceId.toList, opBuf[0])

/-- Refuse the request and close the stream. -/
def deny : GateM Unit := do
  .ofStream (.writeAll [Status.denied.toByte])
  .ofStream .finish

/-- `RingGate::handle_request`. -/
def handleRequest (env : Env) (gate : RingGate σ τ) (peer : EndpointId) : GateM Unit := do
  let (resourceId, opByte) ← readRequest
  match parseOperation opByte with
  | .error _ => deny
  | .ok permission =>
    let granted ← GateM.unwrapOrFalse
      (Registry.hasPermission env gate.registry peer resourceId permission)
    let allowed := granted || Transfer.canAccess env gate.transfer peer resourceId
    if ¬ allowed then deny
    else
      .ofStream (.writeAll [Status.allowed.toByte])
      match ← GateM.invoke gate.transfer resourceId with
      | .ok () => .ofStream .finish
      | .error e => throw (.err (.context "transfer failed" e))

/-- Serve a stream with nothing written to it yet. -/
def serve (env : Env) (gate : RingGate σ τ) (peer : EndpointId) (recv : RecvStream)
    (capacity : Option Nat) : Except GateFault Unit × Exchange :=
  gate.handleRequest env peer ⟨⟨.fresh capacity, recv⟩, []⟩

end RingGate

end IrohRings
