import Coedit.Main
import Coedit.Session.Run
import Coedit.Proofs.LineEndings
import Coedit.Proofs.Batches
import Coedit.Proofs.Converge
import Coedit.Proofs.Consolidate
import Coedit.Proofs.Actions
import Coedit.Proofs.Confirmation
import Coedit.Proofs.Notification
import Coedit.Proofs.SequenceConverge
import Coedit.Proofs.Marking
import Coedit.Proofs.WalkCarry
import Coedit.Proofs.ConsolidatePast
import Coedit.Proofs.LockHolders
import Coedit.Proofs.Meanwhile
import Coedit.Proofs.Ledger
import Coedit.Proofs.Interleaving
import Coedit.Proofs.Exclusion
import Coedit.Proofs.Runs
import Coedit.Proofs.Conservation
import Coedit.Proofs.Stranded
import Coedit.Proofs.Draining
import Coedit.Proofs.Piecemeal
import Coedit.Proofs.HalfMade
import Coedit.Proofs.CrlfConverge
import Coedit.Proofs.Obtainable
import Coedit.Proofs.WalkApart
import Coedit.Proofs.ConsolidateApart
import Coedit.Proofs.Regroup
import Coedit.Proofs.HalfTaken
import Coedit.Proofs.Rejection
import Coedit.Proofs.IndexBounds
import Coedit.Proofs.SurvivingParts
import Coedit.Proofs.Layouts
import Coedit.Proofs.Fitting
import Coedit.Proofs.Stamps
import Coedit.Proofs.PatchGrammar
import Coedit.Proofs.Messages
import Coedit.Proofs.Truncation
import Coedit.Proofs.MixedEndings
import Coedit.Proofs.MachineApply
import Coedit.Proofs.CrlfRoundTrip
import Coedit.Proofs.FailedNotification
import Coedit.Proofs.Labels
import Coedit.Proofs.Redelivery
