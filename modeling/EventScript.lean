import EventScript.CommandLine.Run
import EventScript.Main
import EventScript.Proofs.ArgumentTail
import EventScript.Proofs.Assemblability
import EventScript.Proofs.Batches
import EventScript.Proofs.BlockStructure
import EventScript.Proofs.Cascade
import EventScript.Proofs.CheckAgreement
import EventScript.Proofs.DataRecovery
import EventScript.Proofs.Decodability
import EventScript.Proofs.Diagnosis
import EventScript.Proofs.Editing
import EventScript.Proofs.EntryDocument
import EventScript.Proofs.EntrySaving
import EventScript.Proofs.Flattening
import EventScript.Proofs.Folders
import EventScript.Proofs.Isolation
import EventScript.Proofs.Matching
import EventScript.Proofs.Narrowing
import EventScript.Proofs.Overwriting
import EventScript.Proofs.PassCount
import EventScript.Proofs.PinConvergence
import EventScript.Proofs.Positions
import EventScript.Proofs.Quotation
import EventScript.Proofs.Reachability
import EventScript.Proofs.Reassembly
import EventScript.Proofs.Recoverability
import EventScript.Proofs.Relaxation
import EventScript.Proofs.Reprint
import EventScript.Proofs.Restrictions
import EventScript.Proofs.Scope
import EventScript.Proofs.SeedOrder
import EventScript.Proofs.SourceSpans
import EventScript.Proofs.Stream
import EventScript.Proofs.StreamRoundTrip
import EventScript.Proofs.TextRoundTrip
import EventScript.Proofs.Validity
import EventScript.Proofs.Work
