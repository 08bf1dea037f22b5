import ProtocolInference.Main
import ProtocolInference.Proofs.Automaton.Language
import ProtocolInference.Proofs.Graph.Reachability
import ProtocolInference.Proofs.Table
import ProtocolInference.Proofs.Automaton.Pruning
import ProtocolInference.Proofs.Automaton.Merging
import ProtocolInference.Proofs.Abstraction.Coherence
import ProtocolInference.Proofs.Abstraction.Changes
import ProtocolInference.Proofs.Abstraction.Splitting
import ProtocolInference.Proofs.Abstraction.Construction
import ProtocolInference.Proofs.Abstraction.History
import ProtocolInference.Proofs.Abstraction.Paths
import ProtocolInference.Proofs.Abstraction.Projection
import ProtocolInference.Proofs.Network.Runs
import ProtocolInference.Proofs.Abstraction.Network
import ProtocolInference.Proofs.Trace.Interleaving
import ProtocolInference.Proofs.Trace.Layers
import ProtocolInference.Proofs.Trace.Executions
import ProtocolInference.Proofs.Trace.WellFormed
import ProtocolInference.Proofs.Trace.Schedules
import ProtocolInference.Proofs.Trace.Exploration
import ProtocolInference.Proofs.Trace.Exactness
import ProtocolInference.Proofs.Abstraction.Observed
import ProtocolInference.Proofs.Abstraction.Counting
import ProtocolInference.Proofs.Refinement.Rounds
import ProtocolInference.Proofs.Refinement.Soundness
import ProtocolInference.Proofs.Refinement.Accounting
import ProtocolInference.Proofs.Abstraction.Strictness
import ProtocolInference.Proofs.Abstraction.Visiting
import ProtocolInference.Proofs.Abstraction.Matching
import ProtocolInference.Proofs.Abstraction.Realizing
import ProtocolInference.Proofs.Abstraction.Following
import ProtocolInference.Proofs.Abstraction.Resolving
import ProtocolInference.Proofs.Abstraction.Excluding
import ProtocolInference.Proofs.Refinement.Faults
import ProtocolInference.Proofs.Trace.Completion
import ProtocolInference.Proofs.Recording.Loading
import ProtocolInference.Proofs.Abstraction.Synthesis
import ProtocolInference.Proofs.Abstraction.Finest
import ProtocolInference.Proofs.Automaton.Building
import ProtocolInference.Proofs.Automaton.Bisimulation
import ProtocolInference.Proofs.Automaton.Canonical
import ProtocolInference.Proofs.Abstraction.Halves
import ProtocolInference.Proofs.Refinement.Searches
import ProtocolInference.Proofs.Trace.Conservation
import ProtocolInference.Proofs.Automaton.Cycles
import ProtocolInference.Proofs.Abstraction.Cycles
import ProtocolInference.Proofs.Automaton.Line
import ProtocolInference.Proofs.Abstraction.Line
import ProtocolInference.Proofs.Automaton.Editing
import ProtocolInference.Proofs.Network.Instrumentation
import ProtocolInference.Proofs.Abstraction.Signatures
import ProtocolInference.Proofs.Event.Tokens
import ProtocolInference.Proofs.Encoding.Scm
import ProtocolInference.Proofs.Automaton.Assembly
import ProtocolInference.Proofs.Abstraction.Alphabet
import ProtocolInference.Proofs.Encoding.Channels
import ProtocolInference.Proofs.Encoding.Promela
import ProtocolInference.Proofs.Encoding.Terminal
import ProtocolInference.Proofs.Encoding.Trail
import ProtocolInference.Proofs.Encoding.Codes
import ProtocolInference.Proofs.Encoding.Formula
import ProtocolInference.Proofs.Encoding.Names
import ProtocolInference.Proofs.Encoding.Tokens
import ProtocolInference.Proofs.Trace.Validation
import ProtocolInference.Proofs.Automaton.Representation
import ProtocolInference.Proofs.Automaton.Reachable
import ProtocolInference.Proofs.Recording.Format
