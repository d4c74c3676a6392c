import ActionCode.BitStream.Format
import ActionCode.Description
import ActionCode.Draft
import ActionCode.Pool
import ActionCode.Proofs.Outcome
import ActionCode.Proofs.Reader.Stable
import ActionCode.Proofs.Stability
import ActionCode.Proofs.Reader.Reads
import ActionCode.Proofs.Normal
import ActionCode.Proofs.Readback.Constants
import ActionCode.Proofs.Readback.Records
import ActionCode.Proofs.Placement
import ActionCode.Proofs.Readback.Code
import ActionCode.Proofs.Readback.File
import ActionCode.Proofs.Reader.Yields
import ActionCode.Proofs.Writeback.Constants
import ActionCode.Proofs.Writeback.Records
import ActionCode.Proofs.Writeback.Code
import ActionCode.Proofs.Writeback.File
import ActionCode.Proofs.Flow
import ActionCode.Proofs.Arrangement
import ActionCode.Proofs.Reader.Located
import ActionCode.Proofs.Location
import ActionCode.Proofs.Emission.Fields
import ActionCode.Proofs.Emission.Records
import ActionCode.Proofs.Emission.File
import ActionCode.Proofs.Closure
import ActionCode.Proofs.Inversion
import ActionCode.Proofs.Growth
import ActionCode.Proofs.Reader.Sites
import ActionCode.Proofs.Blame
import ActionCode.Proofs.BitStream.Bits
import ActionCode.Proofs.BitStream.Tape
import ActionCode.Proofs.BitStream.Session
import ActionCode.Proofs.Numbers
import ActionCode.Proofs.BitStream.Atomic
import ActionCode.Proofs.Addresses
import ActionCode.Proofs.Interning
import ActionCode.Proofs.Reader.Onward
import ActionCode.Proofs.Walk
import ActionCode.Proofs.Cuts
import ActionCode.Proofs.Origin
import ActionCode.Proofs.KnownTables
import ActionCode.Proofs.BitStream.Fields
import ActionCode.Proofs.BitStream.Formats
import ActionCode.Proofs.BitStream.Windows
import ActionCode.Proofs.BitStream.Signed
import ActionCode.Proofs.Removal
import ActionCode.Proofs.Deferral
import ActionCode.Proofs.Reader.Costs
import ActionCode.Proofs.Weight
import ActionCode.Proofs.Persistence
import ActionCode.Proofs.Sections
import ActionCode.Proofs.Additions
