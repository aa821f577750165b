import GravTree.Agreement
import GravTree.Ancestors
import GravTree.Balance
import GravTree.Checksum
import GravTree.Crashes
import GravTree.Decoding
import GravTree.Distribution
import GravTree.Durability
import GravTree.Fanout
import GravTree.Filters
import GravTree.Freshness
import GravTree.Insertion
import GravTree.Interleavings
import GravTree.Locality
import GravTree.ManifestRoundTrip
import GravTree.Merging
import GravTree.NodeRoundTrip
import GravTree.Normalising
import GravTree.OnDisk
import GravTree.Openable
import GravTree.Pressure
import GravTree.Proof.Crash
import GravTree.Proof.Drain
import GravTree.Proof.Flows
import GravTree.Proof.Recover
import GravTree.Publish
import GravTree.Quiescence
import GravTree.Recency
import GravTree.Reopening
import GravTree.Routing
import GravTree.Scans
import GravTree.Serving
import GravTree.Shutdown
import GravTree.Sizes
import GravTree.SparseIndex
import GravTree.Survival
import GravTree.Sweep
import GravTree.Termination
import GravTree.Towers
import GravTree.Transparency
import GravTree.Versions
import GravTree.Wakeups
