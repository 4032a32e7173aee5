import Sentential.CommandLine.Run
import Sentential.Document.Forest
import Sentential.Generation.Handles
import Sentential.Grammar.Saved
import Sentential.Policy.Script
import Sentential.Main
import Sentential.Proofs.Recursion
import Sentential.Proofs.Growth
import Sentential.Proofs.Traversal
import Sentential.Proofs.Derivation
import Sentential.Proofs.Flawless
import Sentential.Proofs.Lawful
import Sentential.Proofs.Soundness
import Sentential.Proofs.Lines
import Sentential.Proofs.Numerals
import Sentential.Proofs.Completeness
import Sentential.Proofs.Expansion
import Sentential.Proofs.Fallback
import Sentential.Proofs.Edge
import Sentential.Proofs.Handles
import Sentential.Proofs.Invocations
import Sentential.Proofs.Finite
import Sentential.Proofs.Written
import Sentential.Proofs.Tokens
import Sentential.Proofs.Numbers
import Sentential.Proofs.Shapes
import Sentential.Proofs.Brackets
import Sentential.Proofs.Saving
import Sentential.Proofs.Normalising
import Sentential.Proofs.Reach
import Sentential.Proofs.Faults
import Sentential.Proofs.Members
import Sentential.Proofs.Termination
import Sentential.Document.Digest
import Sentential.Proofs.Appends
import Sentential.Proofs.Verdict
import Sentential.Proofs.Tandem
import Sentential.Proofs.Stream
import Sentential.Proofs.Approximation
import Sentential.Proofs.Rewriting
import Sentential.Proofs.Layers
import Sentential.Proofs.Decoration
import Sentential.Proofs.LeafByLeaf
import Sentential.Proofs.Outlines
import Sentential.Proofs.Replies
import Sentential.Proofs.Detours
import Sentential.Proofs.Offers
import Sentential.Proofs.Scripts
import Sentential.Proofs.Rehearsals
import Sentential.Proofs.Anticipations
import Sentential.Proofs.Lockstep
import Sentential.Proofs.Switches
import Sentential.Proofs.Renaming
import Sentential.Proofs.Relevance
import Sentential.Proofs.Draws
import Sentential.Proofs.Lookups
import Sentential.Proofs.Messages
