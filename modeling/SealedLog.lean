import SealedLog.Service.Config
import SealedLog.Service.Queries
import SealedLog.Store.File
import SealedLog.Store.Flaky
import SealedLog.Main
import SealedLog.Proofs.Tree.Commitment
import SealedLog.Proofs.Tree.Parenthood
import SealedLog.Proofs.Log.Acceptance
import SealedLog.Proofs.Log.Membership
import SealedLog.Proofs.Log.Placement
import SealedLog.Proofs.Log.Rewriting
import SealedLog.Proofs.Log.Resuming
import SealedLog.Proofs.Chain.Report
import SealedLog.Proofs.Store.Mishaps
import SealedLog.Proofs.Service.Answers
import SealedLog.Proofs.Event.Composition
import SealedLog.Proofs.Event.RoundTrip
