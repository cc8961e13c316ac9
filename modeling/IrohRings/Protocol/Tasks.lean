import IrohRings.Foundation.Programs
import IrohRings.Protocol.Gate

/-!
# IrohRings.Protocol.Tasks

`handle_request` as the asynchronous task it is (`src/protocol/gate.rs`). The gate
spawns one task for each stream that a peer opens; wherever a task awaits, or asks the
registry, others may run and what it asks about may change. So here the task is a
program over the requests it makes (`TaskOp`), and what they are answered with is left
open. So is the transfer: its code is a parameter (`TransferCode`), and may ask for
things of its own (`Backing`).
-/

namespace IrohRings

open Foundation

/-! ### The requests of a task -/

/-- What a transfer is backed by: the state of its own, and what it can ask of it. A
request may write to the stream, unless it is one that has nothing to do with it. -/
structure Backing where
  Op : Type
  Res : Op → Type
  World : Type
  exec : (op : Op) → World → SendStream → Res op × World × SendStream
  OffStream : Op → Prop
  offStream_keeps : ∀ op w send, OffStream op → (exec op w send).2.2 = send

variable [EndpointKeys]

/-- A request of a task to its host. -/
inductive TaskOp (B : Backing)
  /-- `recv.read_exact(buf)`, with a buffer of `n` bytes. -/
  | readExact (n : Nat)
  /-- `recv.read_to_end(size_limit)` -/
  | readToEnd (sizeLimit : Nat)
  | writeAll (data : Bytes)
  | finish
  /-- The transfer is called. -/
  | invoke (resourceId : Bytes)
  | hasPermission (peer : EndpointId) (resourceId : Bytes) (permission : Permission)
  | removeRingFromResource (resourceId : Bytes)
  /-- A request to the state of the transfer. -/
  | own (op : B.Op)

namespace TaskOp

variable {B : Backing}

/-- What a request is answered with. -/
abbrev Res : TaskOp B → Type
  | readExact n => Except ReadFault (Vector UInt8 n)
  | readToEnd _ => Except AnyError Bytes
  | writeAll _ => Except WriteFault Unit
  | finish => Except WriteFault Unit
  | invoke _ => Unit
  | hasPermission _ _ _ => Outcome Bool
  | removeRingFromResource _ => Outcome Unit
  | own op => B.Res op

/-- The request has nothing to do with the streams of the task. -/
def OffStream : TaskOp B → Prop
  | hasPermission _ _ _ | removeRingFromResource _ => True
  | own op => B.OffStream op
  | _ => False

/-- The request is one a transfer may make: anything but calling a transfer. -/
def Serving : TaskOp B → Prop
  | invoke _ => False
  | _ => True

/-- The request reads a buffer full of bytes. -/
def IsRead : TaskOp B → Prop
  | readExact _ => True
  | _ => False

/-- The request is to what the transfer is backed by. -/
def IsOwn : TaskOp B → Prop
  | own _ => True
  | _ => False

instance (op : TaskOp B) : Decidable op.IsOwn := by
  cases op <;> unfold IsOwn <;> infer_instance

end TaskOp

/-- What tasks may ask. -/
abbrev Asks (B : Backing) : Interface := ⟨TaskOp B, TaskOp.Res⟩

/-- The code of a task. -/
abbrev TaskM (B : Backing) (α : Type) : Type := Program (Asks B) GateFault α

namespace TaskM

variable {B : Backing}

/-- Make a request, and wait for its answer. -/
def ask (op : TaskOp B) : TaskM B op.Res := @Program.request (Asks B) GateFault op

/-- `recv.read_exact(&mut buf).await.context(context)?` -/
def readExact (context : String) (n : Nat) : TaskM B (Vector UInt8 n) := do
  let out ← ask (.readExact n)
  .ofExcept (out.mapError fun e => .err (.context context (.read e)))

/-- `recv.read_to_end(size_limit).await?` -/
def readToEnd (sizeLimit : Nat) : TaskM B Bytes := do
  let out ← ask (.readToEnd sizeLimit)
  .ofExcept (out.mapError .err)

/-- `send.write_all(data).await?` -/
def writeAll (data : Bytes) : TaskM B Unit := do
  let out ← ask (.writeAll data)
  .ofExcept (out.mapError fun e => .err (.write e))

/-- `send.finish()?` -/
def finish : TaskM B Unit := do
  let out ← ask .finish
  .ofExcept (out.mapError fun e => .err (.write e))

/-- `registry.has_permission(..).unwrap_or(false)` -/
def hasPermission (peer : EndpointId) (resourceId : Bytes) (permission : Permission) :
    TaskM B Bool := do
  match ← ask (.hasPermission peer resourceId permission) with
  | .ok b => pure b
  | .error (.err _) => pure false
  | .error (.panic message) => .fail (.panic message)

end TaskM

/-- A `Transfer` as the code of tasks. Asking for access leaves the streams alone, and
a transfer calls no transfer. -/
structure TransferCode (B : Backing) where
  canAccess : EndpointId → Bytes → TaskM B Bool
  transfer : Bytes → TaskM B Unit
  canAccess_offStream : ∀ peer id, (canAccess peer id).Uses TaskOp.OffStream
  transfer_serving : ∀ id, (transfer id).Uses TaskOp.Serving

namespace TransferCode

variable {B : Backing} (T : TransferCode B)

/-- Read a request: the resource id and the operation byte. -/
def readRequest : TaskM B (Bytes × UInt8) := do
  let lenBuf ← TaskM.readExact "reading resource_id length" 2
  let len ← .ofExcept ((parseResourceIdLen lenBuf).mapError .err)
  let resourceId ← TaskM.readExact "reading resource_id" len
  let opBuf ← TaskM.readExact "reading operation byte" 1
  return (resourceId.toList, opBuf.get 0)

/-- `registry.has_permission(..).unwrap_or(false) || transfer.can_access(..).await`: the
transfer is only asked if the registry does not grant the permission. -/
def authorize (peer : EndpointId) (resourceId : Bytes) (permission : Permission) :
    TaskM B Bool := do
  let granted ← TaskM.hasPermission peer resourceId permission
  if granted then pure true else T.canAccess peer resourceId

/-- Refuse the request and close the stream. -/
def deny : TaskM B Unit := do
  .writeAll [Status.denied.toByte]
  .finish

/-- Hand the streams over, and close them when the transfer is through. -/
def handOver (resourceId : Bytes) : TaskM B Unit := do
  TaskM.ask (.invoke resourceId)
  match ← (T.transfer resourceId).attempt with
  | .ok () => .finish
  | .error (.err e) => .fail (.err (.context "transfer failed" e))
  | .error (.panic message) => .fail (.panic message)

/-- `RingGate::handle_request`, of a stream that was opened by `peer`. -/
def handleRequest (peer : EndpointId) : TaskM B Unit := do
  let (resourceId, opByte) ← readRequest
  match parseOperation opByte with
  | .error _ => deny
  | .ok permission =>
    let allowed ← T.authorize peer resourceId permission
    if ¬ allowed then deny
    else
      .writeAll [Status.allowed.toByte]
      T.handOver resourceId

end TransferCode

end IrohRings
