import NamelessLambda.Evaluation.Run
import NamelessLambda.Proofs.PureTerm.Standard
import NamelessLambda.Proofs.Soundness
import NamelessLambda.Reduction.Path
import NamelessLambda.Session
import NamelessLambda.Term.Classes
import NamelessLambda.Term.Outline
import NamelessLambda.Term.ReversePolish
import NamelessLambda.Proofs.CallByName
import NamelessLambda.Proofs.CleanedStart
import NamelessLambda.Proofs.Loosening
import NamelessLambda.Proofs.Scope
import NamelessLambda.Proofs.Simplification
import NamelessLambda.Proofs.Stability
import NamelessLambda.Proofs.Rendering
import NamelessLambda.Proofs.EventLog
import NamelessLambda.Proofs.Growth
import NamelessLambda.Evaluation.Checked
import NamelessLambda.Proofs.MachineRange
import NamelessLambda.Proofs.LockStep
import NamelessLambda.Proofs.ShiftExchange
import NamelessLambda.Proofs.ShiftedStart
import NamelessLambda.Proofs.SentinelCodes
import NamelessLambda.Proofs.ClosedForm
import NamelessLambda.Proofs.ExchangeLaws
import NamelessLambda.Proofs.CleaningPass
import NamelessLambda.Proofs.BindingFailures
import NamelessLambda.Proofs.SeveralArguments
import NamelessLambda.Proofs.DiscardedArgument
import NamelessLambda.Proofs.StuckForms
import NamelessLambda.Proofs.HeadRedex
import NamelessLambda.Proofs.NodeCount
