import HashArchive.Archive.Merge
import HashArchive.Archive.Pack
import HashArchive.Arena.Merge
import HashArchive.Arena.Read
import HashArchive.Bytes.Lemmas
import HashArchive.Policy.Json
import HashArchive.Session
import HashArchive.Proofs.Name.Order
import HashArchive.Proofs.Archive.Change
import HashArchive.Proofs.Archive.Links
import HashArchive.Proofs.Archive.Extraction
import HashArchive.Proofs.Archive.Losses
import HashArchive.Proofs.Archive.Rewrite
import HashArchive.Proofs.Session
import HashArchive.Proofs.Archive.Cuts
import HashArchive.Proofs.Archive.Shape
import HashArchive.Proofs.Archive.History
import HashArchive.Proofs.Archive.Duplicates
import HashArchive.Proofs.Index.Inverse
import HashArchive.Proofs.NameTable.Records
import HashArchive.Proofs.Archive.OnePass
import HashArchive.Proofs.Metadata.Scan
import HashArchive.Proofs.Archive.Pruning
import HashArchive.Proofs.Archive.Lookup
import HashArchive.Proofs.Archive.Listing
import HashArchive.Proofs.Archive.Paths
import HashArchive.Proofs.Arena.Linked
import HashArchive.Proofs.Arena.Pruning
import HashArchive.Proofs.Arena.Failures
import HashArchive.Proofs.Arena.Complete
import HashArchive.Proofs.Arena.Safety
import HashArchive.Proofs.Glob.Patterns
import HashArchive.Proofs.Packed
import HashArchive.Proofs.Digest.Apart
import HashArchive.Proofs.Archive.Packing
