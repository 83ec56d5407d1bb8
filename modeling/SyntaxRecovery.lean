import SyntaxRecovery.Main
import SyntaxRecovery.Proofs.Propagation.Deferral
import SyntaxRecovery.Proofs.Propagation.Safety
import SyntaxRecovery.Proofs.Propagation.Leaving
import SyntaxRecovery.Proofs.Propagation.Departures
import SyntaxRecovery.Proofs.Stream.Replay
import SyntaxRecovery.Proofs.Tree.Arena
import SyntaxRecovery.Proofs.Lexical.Ascii
import SyntaxRecovery.Proofs.Lexical.Boundaries
import SyntaxRecovery.Proofs.Lexical.Characters
import SyntaxRecovery.Proofs.Lexical.Lossless
import SyntaxRecovery.Proofs.Lexical.Spacing
import SyntaxRecovery.Proofs.Lexical.Munch
import SyntaxRecovery.Proofs.Lexical.Literals
import SyntaxRecovery.Proofs.Log.Slots
import SyntaxRecovery.Proofs.Stream.Applications
import SyntaxRecovery.Proofs.Stream.Termination
import SyntaxRecovery.Proofs.Stream.Repetition
import SyntaxRecovery.Proofs.Stream.Flags
import SyntaxRecovery.Proofs.Stream.Recording
import SyntaxRecovery.Proofs.Stream.Integrity
import SyntaxRecovery.Proofs.Propagation.Enclosure
import SyntaxRecovery.Proofs.Propagation.Collapse
import SyntaxRecovery.Proofs.Propagation.Rewriting
import SyntaxRecovery.Proofs.Propagation.Idioms
import SyntaxRecovery.Proofs.Propagation.Leftovers
import SyntaxRecovery.Proofs.Propagation.Dangling
import SyntaxRecovery.Proofs.Propagation.Marking
import SyntaxRecovery.Proofs.Propagation.Correlation
import SyntaxRecovery.Proofs.Propagation.Exchange
import SyntaxRecovery.Proofs.Stream.Grouping
import SyntaxRecovery.Proofs.Propagation.Splitting
import SyntaxRecovery.Proofs.Tree.Acyclic
import SyntaxRecovery.Proofs.Tree.Acceptance
import SyntaxRecovery.Proofs.Document.Coding
import SyntaxRecovery.Proofs.Document.Flags
import SyntaxRecovery.Proofs.Document.RoundTrip
import SyntaxRecovery.Proofs.Propagation.Frame
import SyntaxRecovery.Proofs.Propagation.Pruning
import SyntaxRecovery.Proofs.Stream.Rewinding
import SyntaxRecovery.Proofs.Propagation.Replayed
import SyntaxRecovery.Proofs.Tree.InPlace
import SyntaxRecovery.Proofs.Tree.Root
import SyntaxRecovery.Proofs.Tree.SlotTable
import SyntaxRecovery.Proofs.Propagation.LoopHeaders
import SyntaxRecovery.Proofs.Stream.RemovalFlag
import SyntaxRecovery.Proofs.CommandLine.Listing
import SyntaxRecovery.Proofs.Propagation.Undisturbed
