import IrohRings.Examples.Delete
import IrohRings.Examples.Fetch
import IrohRings.Transfers.FsNode
import IrohRings.Transfers.FsDownload
import IrohRings.Foundation.Leases
import IrohRings.Foundation.Runs
import IrohRings.Transfers.FsAccess
import IrohRings.Transfers.FsReads
import IrohRings.Transfers.Negotiation
import IrohRings.Protocol.RequestCode
import IrohRings.Backends.Redb.Restarts
import IrohRings.Backends.Redb.OldSchemas
import IrohRings.Backends.Redb.CodecSound
import IrohRings.Backends.Redb.MemberKeys
import IrohRings.Backends.Redb.Isolation
import IrohRings.Backends.Refinement
import IrohRings.Backends.OpenRing
import IrohRings.Backends.EvictionUnseen
import IrohRings.Backends.EvictionExact
import IrohRings.Backends.MemoryReads
import IrohRings.Backends.Listings
import IrohRings.Backends.Errors
import IrohRings.Backends.Confinement
import IrohRings.Backends.Concurrency
