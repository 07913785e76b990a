import Mismatch.Main
import Mismatch.Proofs.Bare
import Mismatch.Proofs.Search
import Mismatch.Proofs.Memo
import Mismatch.Proofs.Settle
import Mismatch.Proofs.Chain
import Mismatch.Proofs.Session
import Mismatch.Proofs.DerefPath
import Mismatch.Proofs.Oracle
import Mismatch.Proofs.Conversion
import Mismatch.Proofs.Fixes
import Mismatch.Proofs.Agree
import Mismatch.Proofs.History
import Mismatch.Proofs.Derivation
import Mismatch.Proofs.Reached
import Mismatch.Proofs.Coherence
import Mismatch.Proofs.Prelude
import Mismatch.Proofs.Reading
import Mismatch.Proofs.RoundTrip
import Mismatch.Proofs.Termination
import Mismatch.Proofs.Unique
import Mismatch.Proofs.Echoes
import Mismatch.Proofs.Snapshots
import Mismatch.Proofs.Grammar
import Mismatch.Proofs.Parsing
import Mismatch.Proofs.Distinct
import Mismatch.Proofs.LeastMatch
import Mismatch.Proofs.ChainShape
import Mismatch.Proofs.PathSearch
import Mismatch.Proofs.Order
import Mismatch.Proofs.Resolution
import Mismatch.Proofs.UniqueKeys
import Mismatch.Proofs.CandidateOrder
import Mismatch.Proofs.MutablePlace
import Mismatch.Proofs.FastPath
import Mismatch.Proofs.AnnotationJson
import Mismatch.Proofs.RecordJson
import Mismatch.Proofs.Parameters
import Mismatch.Proofs.EditDistance
import Mismatch.Proofs.QualifiedNames
import Mismatch.Proofs.Parentheses
import Mismatch.Proofs.OptionSpelling
import Mismatch.Proofs.Ranking
import Mismatch.Proofs.Html
import Mismatch.Proofs.FilterHistory
