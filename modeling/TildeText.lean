import TildeText.Main
import TildeText.Proofs.Composition
import TildeText.Proofs.Fences
import TildeText.Proofs.Nesting
import TildeText.Shelf
import TildeText.Proofs.Heredity
import TildeText.Proofs.PlainText
import TildeText.Proofs.Provenance
import TildeText.Proofs.Isolation
import TildeText.Proofs.Need
import TildeText.Proofs.FiniteMap
import TildeText.Proofs.Fuel
import TildeText.Proofs.WriteOnly
import TildeText.Proofs.Anonymous
import TildeText.Proofs.Buckets
import TildeText.Proofs.Termination
import TildeText.Proofs.Evolution
import TildeText.Proofs.Failures
import TildeText.Proofs.Conversation
import TildeText.Proofs.Ledger
import TildeText.Proofs.Arguments
import TildeText.Proofs.Numerals
import TildeText.Proofs.Rounds
import TildeText.Proofs.Matching
import TildeText.Proofs.Splitting
import TildeText.Proofs.Arithmetic
import TildeText.Proofs.Ordering
import TildeText.Proofs.Cases
import TildeText.Proofs.Characters
import TildeText.Proofs.Folds
import TildeText.Proofs.Rebinding
import TildeText.Proofs.Asking
import TildeText.Proofs.CaseChains
import TildeText.Proofs.Substrings
import TildeText.Proofs.Encoding
import TildeText.Proofs.Words
import TildeText.Proofs.Escapes
import TildeText.Proofs.Paths
import TildeText.Proofs.Lookup
import TildeText.Proofs.Executions
import TildeText.Proofs.Numbering
import TildeText.Proofs.Lines
import TildeText.Proofs.Openings
import TildeText.Proofs.Traces
import TildeText.Proofs.Digests
