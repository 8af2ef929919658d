import ResidueMachine.Command.FileSystem
import ResidueMachine.Machine.History
import ResidueMachine.Main
import ResidueMachine.Proofs.Checking
import ResidueMachine.Proofs.Histories
import ResidueMachine.Proofs.IntegerRules
import ResidueMachine.Proofs.Loading
import ResidueMachine.Proofs.Limits
import ResidueMachine.Proofs.Congruence
import ResidueMachine.Proofs.Completion
import ResidueMachine.Proofs.LoadErrors
import ResidueMachine.Proofs.ParsingExpressions
import ResidueMachine.Proofs.TokenGrammar
import ResidueMachine.Proofs.EmptyResults
import ResidueMachine.Proofs.Replies
import ResidueMachine.Proofs.Outcomes
import ResidueMachine.Proofs.CheckedAnswers
import ResidueMachine.Proofs.FailureSpans
import ResidueMachine.Proofs.LoadErrorSpans
import ResidueMachine.Proofs.Interleavings
import ResidueMachine.Proofs.Residues
import ResidueMachine.Proofs.Depths
import ResidueMachine.Proofs.Composition
import ResidueMachine.Proofs.Frames
import ResidueMachine.Proofs.Fusion
import ResidueMachine.Proofs.Origins
import ResidueMachine.Proofs.AffineValues
import ResidueMachine.Proofs.Exchanges
import ResidueMachine.Proofs.Listings
import ResidueMachine.Proofs.ShownRanges
import ResidueMachine.Proofs.StackHistories
import ResidueMachine.Proofs.ReadingCosts
