import PagedIndex.Bytes.Hex
import PagedIndex.Image.Shelf
import PagedIndex.Index.Add
import PagedIndex.Index.Clear
import PagedIndex.Index.Remove
import PagedIndex.Index.Replace
import PagedIndex.Proofs.Admission
import PagedIndex.Proofs.Atomicity
import PagedIndex.Proofs.Balance
import PagedIndex.Proofs.Clearing
import PagedIndex.Proofs.Damage
import PagedIndex.Proofs.Ending
import PagedIndex.Proofs.Image.Offsets
import PagedIndex.Proofs.Image.RoundTrip
import PagedIndex.Proofs.Interrupted
import PagedIndex.Proofs.Locality
import PagedIndex.Proofs.Malformed
import PagedIndex.Proofs.Narrowing
import PagedIndex.Proofs.Nearest
import PagedIndex.Proofs.Ownership
import PagedIndex.Proofs.Refinement
import PagedIndex.Proofs.Rewriting
import PagedIndex.Proofs.Serving
import PagedIndex.Proofs.Siblings
import PagedIndex.Proofs.StoredFilter
import PagedIndex.Proofs.Transparency
import PagedIndex.Proofs.Verification
import PagedIndex.Tree.Lookup
import PagedIndex.Tree.Outline
import PagedIndex.Tree.Scan
import PagedIndex.Tree.Verify
import PagedIndex.Tree.Write
import PagedIndex.Value.ShapeName
