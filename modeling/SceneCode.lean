import SceneCode.Command.Snapshot
import SceneCode.Main
import SceneCode.Tree.Encode
import SceneCode.Proofs.ControlFlow
import SceneCode.Proofs.ForwardCalls
import SceneCode.Proofs.Meaning.Preservation
import SceneCode.Proofs.Halting
import SceneCode.Proofs.PendingCalls
import SceneCode.Proofs.Decoding.RoundTrip
import SceneCode.Proofs.Decoding.Grammar
import SceneCode.Proofs.Variables
import SceneCode.Proofs.Appending
import SceneCode.Proofs.Loading
import SceneCode.Proofs.Renaming.Programs
import SceneCode.Proofs.Session.Confinement
import SceneCode.Proofs.Session.Reuse
import SceneCode.Proofs.Functions.Returns
import SceneCode.Proofs.Functions.EntryPoints
import SceneCode.Proofs.Rewriting.Programs
import SceneCode.Proofs.Decoding.Spellings
import SceneCode.Proofs.Listing.Recovery
import SceneCode.Proofs.OpenScopes
