import FiniteAutomata.Graph.Search.Lemmas
import FiniteAutomata.Reading.Results
import FiniteAutomata.Sample.Draft
import FiniteAutomata.Workbench
import FiniteAutomata.Proofs.Search
import FiniteAutomata.Proofs.Tables
import FiniteAutomata.Proofs.Closure
import FiniteAutomata.Proofs.Walk
import FiniteAutomata.Proofs.Configurations
import FiniteAutomata.Proofs.Labels
import FiniteAutomata.Proofs.NfaRuns
import FiniteAutomata.Proofs.Acceptance
import FiniteAutomata.Proofs.Liveness
import FiniteAutomata.Proofs.Emptiness
import FiniteAutomata.Proofs.Subsets.Reached
import FiniteAutomata.Proofs.Subsets.Determinized
import FiniteAutomata.Proofs.Subsets.Simulation
import FiniteAutomata.Proofs.DfaRuns
import FiniteAutomata.Proofs.Criterion
import FiniteAutomata.Proofs.Text.Codes
import FiniteAutomata.Proofs.Text.Escapes
import FiniteAutomata.Proofs.Text.Json
import FiniteAutomata.Value.Composed
import FiniteAutomata.Proofs.Identity.Drafts
import FiniteAutomata.Proofs.Text.Spelling
import FiniteAutomata.Proofs.CanonicalOrder
import FiniteAutomata.Proofs.Subsets.Invariance
import FiniteAutomata.Proofs.Reports
import FiniteAutomata.Proofs.Faithful
import FiniteAutomata.Proofs.Subsets.Encoding
import FiniteAutomata.Proofs.SearchOrder
import FiniteAutomata.Proofs.WordOrder
import FiniteAutomata.Proofs.Subsets.Discovery
import FiniteAutomata.Proofs.Kinds
import FiniteAutomata.Proofs.Subsets.Drafts
import FiniteAutomata.Proofs.Multisets
import FiniteAutomata.Proofs.Relisted.Tables
import FiniteAutomata.Proofs.Relisted.Issues
import FiniteAutomata.Proofs.Relisted.Runs
import FiniteAutomata.Proofs.DefinedOrder
import FiniteAutomata.Proofs.ShortestWords
import FiniteAutomata.Proofs.Draws
import FiniteAutomata.Proofs.Subsets.Probes
import FiniteAutomata.Proofs.Places
import FiniteAutomata.Proofs.Reachability
import FiniteAutomata.Proofs.Subsets.Trimmed
import FiniteAutomata.Proofs.Sampled.Axes
import FiniteAutomata.Proofs.Sampled.Edges
import FiniteAutomata.Proofs.Sampled.Drafts
import FiniteAutomata.Proofs.Probes
import FiniteAutomata.Proofs.Errors
import FiniteAutomata.Proofs.Built.Calls
import FiniteAutomata.Proofs.Built.Drafts
import FiniteAutomata.Proofs.Built.Inferred
import FiniteAutomata.Proofs.Sampled.Accepted
import FiniteAutomata.Proofs.LimitedChecks
import FiniteAutomata.Proofs.Rebuilt.Drafts
import FiniteAutomata.Proofs.Traces
import FiniteAutomata.Proofs.Subsets.Powerset
import FiniteAutomata.Proofs.CanonicalForm
import FiniteAutomata.Proofs.EdgeLists
