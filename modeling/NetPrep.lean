import NetPrep.CommandLine.Run
import NetPrep.Main
import NetPrep.Proofs.Legalization
import NetPrep.Proofs.Checking
import NetPrep.Proofs.Supported
import NetPrep.Proofs.Passes
import NetPrep.Proofs.Plain
import NetPrep.Proofs.Meaning
import NetPrep.Proofs.Wired
import NetPrep.Proofs.Valuations
import NetPrep.Proofs.Similar
import NetPrep.Proofs.Storing
import NetPrep.Proofs.Rewriting
import NetPrep.Proofs.Advancing
import NetPrep.Proofs.Walk
import NetPrep.Proofs.Preservation
import NetPrep.Proofs.Refinement
import NetPrep.Proofs.Integrity
import NetPrep.Proofs.Leading
import NetPrep.Proofs.Normal
import NetPrep.Proofs.JsonText
import NetPrep.Proofs.Reports
import NetPrep.Proofs.RoundTrip
import NetPrep.Proofs.Bounding
import NetPrep.Proofs.Breaking
import NetPrep.Proofs.Accounts
import NetPrep.Proofs.Repeating
import NetPrep.Proofs.Unsharing
import NetPrep.Proofs.Settling
import NetPrep.Proofs.Pruning
import NetPrep.Proofs.Negating
import NetPrep.Proofs.Balancing
import NetPrep.Proofs.Diverting
import NetPrep.Proofs.OptionText
import NetPrep.Proofs.Queries
import NetPrep.Proofs.Preorder
import NetPrep.Proofs.Numbers
import NetPrep.Proofs.Drawing
import NetPrep.Proofs.Interning
import NetPrep.Proofs.Withdrawing
