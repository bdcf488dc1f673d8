import OperationTree.Main
import OperationTree.Sql.Connection
import OperationTree.File.Store
import OperationTree.Proofs.Tree.Listing
import OperationTree.Proofs.Session.Closing
import OperationTree.Proofs.Session.Phase
import OperationTree.Proofs.Session.Aggregation
import OperationTree.Proofs.Signature
import OperationTree.Proofs.Url.Defaults
import OperationTree.Proofs.Session.Canned
import OperationTree.Proofs.Session.Descent
import OperationTree.Proofs.Http.Headers
import OperationTree.Proofs.Http.Form
import OperationTree.Proofs.Http.Precedence
import OperationTree.Proofs.Sql.Columns
import OperationTree.Proofs.Url.Override
import OperationTree.Proofs.Session.Alike
import OperationTree.Proofs.Session.Loading
import OperationTree.Proofs.Session.Outstanding
import OperationTree.Proofs.Session.Release
import OperationTree.Proofs.Url.Substitution
import OperationTree.Proofs.Url.Component
import OperationTree.Proofs.Session.Completion
import OperationTree.Proofs.Session.Resolution
import OperationTree.Proofs.Merging
import OperationTree.Proofs.Url.Replay
import OperationTree.Proofs.Url.Search
import OperationTree.Proofs.File.Content
import OperationTree.Proofs.Request
import OperationTree.Proofs.CommandLine.Outcome
