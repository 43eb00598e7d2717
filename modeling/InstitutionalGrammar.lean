import InstitutionalGrammar.Node.Render
import InstitutionalGrammar.Options.Reader
import InstitutionalGrammar.Parse
import InstitutionalGrammar.Session
import InstitutionalGrammar.Proofs.Plain.Pair
import InstitutionalGrammar.Proofs.Ownership.Links
import InstitutionalGrammar.Proofs.Ownership.Outer
import InstitutionalGrammar.Proofs.WellFormed.Parse
import InstitutionalGrammar.Proofs.Depth.Reading
import InstitutionalGrammar.Proofs.Depth.Bounds
import InstitutionalGrammar.Proofs.Depth.Settles
import InstitutionalGrammar.Proofs.WellFormed.Unannotated
import InstitutionalGrammar.Proofs.Session.Calls
import InstitutionalGrammar.Proofs.Reading.Joined
import InstitutionalGrammar.Proofs.Session.Enclosed
import InstitutionalGrammar.Proofs.Reading.Verbatim
import InstitutionalGrammar.Proofs.Combination.Accepted
import InstitutionalGrammar.Proofs.Combination.Lossless
import InstitutionalGrammar.Proofs.Plain.Height
import InstitutionalGrammar.Proofs.Combination.Stretches
import InstitutionalGrammar.Proofs.Combination.Associated
import InstitutionalGrammar.Proofs.Plain.Sequence
import InstitutionalGrammar.Proofs.Plain.Factored
import InstitutionalGrammar.Proofs.Removal.Order
import InstitutionalGrammar.Proofs.Ownership.Resolved
import InstitutionalGrammar.Proofs.Header.Written
import InstitutionalGrammar.Proofs.Reading.Balance
import InstitutionalGrammar.Proofs.Ownership.Elements
import InstitutionalGrammar.Proofs.Ownership.Emptied
