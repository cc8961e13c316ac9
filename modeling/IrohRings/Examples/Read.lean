import IrohRings.Protocol.Tasks

/-!
# IrohRings.Examples.Read

`StaticTransfer` (`examples/read.rs`): a transfer that is backed by nothing, and sends
the same payload to everyone who is let in.
-/

namespace IrohRings

open Foundation

/-- Nothing behind the transfer. -/
abbrev Backing.nothing : Backing where
  Op := Empty
  Res := Empty.elim
  World := Unit
  exec := nofun
  OffStream := Empty.elim
  offStream_keeps := nofun

/-- The payload served when access is granted. -/
def staticContent : Bytes := asBytes "the content of example-document-v1"

variable [EndpointKeys]

/-- `StaticTransfer`. -/
inductive StaticTransfer
  | mk

instance : Transfer StaticTransfer where
  canAccess _ _ _ _ := false
  transfer _ _ := .writeAll staticContent

/-- `StaticTransfer` as code. -/
def staticTransfer : TransferCode .nothing where
  canAccess _ _ := .ret false
  transfer _ := TaskM.writeAll staticContent
  canAccess_offStream _ _ := trivial
  transfer_serving _ := (Program.uses_request trivial).bind fun _ => Program.uses_ofExcept

end IrohRings
