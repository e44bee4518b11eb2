import JsonCabinet.Http.Binding
import JsonCabinet.Main
import JsonCabinet.Proofs.WriteThrough
import JsonCabinet.Proofs.Past
import JsonCabinet.Proofs.Failures
import JsonCabinet.Proofs.Updates
import JsonCabinet.Proofs.Invocations
import JsonCabinet.Proofs.Unflushed
import JsonCabinet.Proofs.Deletions
import JsonCabinet.Proofs.Durability
import JsonCabinet.Proofs.Naming
import JsonCabinet.Proofs.Http.Exchanges
import JsonCabinet.Proofs.Decoding
import JsonCabinet.Proofs.Canonical
import JsonCabinet.Proofs.Files.Preparing
import JsonCabinet.Proofs.Http.Calls
import JsonCabinet.Proofs.Http.Routing
import JsonCabinet.Proofs.Http.Keys
import JsonCabinet.Proofs.Http.Listings
import JsonCabinet.Proofs.Locations
import JsonCabinet.Proofs.Conversion
