import MemberAccess.Interner
import MemberAccess.Paint.Bytes
import MemberAccess.Paint.Ledger
import MemberAccess.Diagnostic.Render
import MemberAccess.Proofs.Matching.Applicability
import MemberAccess.Proofs.Range.Resolution
import MemberAccess.Proofs.Resolution.Ambiguity
import MemberAccess.Proofs.Resolution.Caching
import MemberAccess.Proofs.Resolution.Insertion
import MemberAccess.Proofs.Typing.Transitivity
import MemberAccess.Resolution.Batch
import MemberAccess.Resolution.Constant
import MemberAccess.Text.Once
import MemberAccess.Workspace
import MemberAccess.Proofs.Typing.Stripping
import MemberAccess.Proofs.Matching.Instances
import MemberAccess.Proofs.Renaming.Types
import MemberAccess.Proofs.Renaming.Freshness
import MemberAccess.Proofs.Renaming.Graphs
import MemberAccess.Proofs.Renaming.Instantiation
import MemberAccess.Proofs.Renaming.Matching
import MemberAccess.Proofs.Renaming.Inference
import MemberAccess.Proofs.Renaming.Screening
import MemberAccess.Proofs.Instantiation.Equations
import MemberAccess.Proofs.Comparison.Representation
import MemberAccess.Proofs.Comparison.UpperBounds
import MemberAccess.Proofs.Resolution.TieBreaking
import MemberAccess.Proofs.Typing.Denotation
import MemberAccess.Proofs.Resolution.Candidates
import MemberAccess.Proofs.Resolution.Arguments
import MemberAccess.Proofs.Matching.Solutions
import MemberAccess.Proofs.Resolution.TypeArguments
import MemberAccess.Proofs.Comparison.Limits
import MemberAccess.Proofs.Resolution.Enclosing
import MemberAccess.Proofs.Resolution.ClassCandidates
import MemberAccess.Proofs.Graph.Cycles
import MemberAccess.Proofs.Comparison.Variables
import MemberAccess.Proofs.Substitution.Composition
import MemberAccess.Proofs.Resolution.Constructors
import MemberAccess.Proofs.Visibility
import MemberAccess.Proofs.Resolution.Batches
import MemberAccess.Proofs.Typing.BreadthFirst
import MemberAccess.Proofs.Substitution.Locality
import MemberAccess.Proofs.Typing.Persistence
import MemberAccess.Proofs.Typing.NormalForms
import MemberAccess.Proofs.Diagnostic.Rendering
import MemberAccess.Proofs.Display.Ambiguity
