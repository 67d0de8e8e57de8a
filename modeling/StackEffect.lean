import StackEffect.Assoc
import StackEffect.Command.Options
import StackEffect.Command.Path
import StackEffect.Command.Run
import StackEffect.Constraint.Fault
import StackEffect.Constraint.Lookup
import StackEffect.Constraint.Representative
import StackEffect.Constraint.Solve
import StackEffect.Constraint.Store
import StackEffect.Constraint.Unify
import StackEffect.Dictionary
import StackEffect.Digraph
import StackEffect.Document.Fields
import StackEffect.Document.Node
import StackEffect.Document.Property
import StackEffect.Document.Reader
import StackEffect.Document.Scalar
import StackEffect.Document.Sort
import StackEffect.Document.Source
import StackEffect.Document.TokenStream
import StackEffect.Fresh
import StackEffect.Inference.Body
import StackEffect.Inference.Definitions
import StackEffect.Inference.Session
import StackEffect.Kind.Basic
import StackEffect.Kind.Canonical
import StackEffect.Kind.Closing
import StackEffect.Kind.Printer
import StackEffect.Kind.Stack
import StackEffect.Kind.Vars
import StackEffect.Lattice.Basic
import StackEffect.Lattice.Reader
import StackEffect.Lattice.Validate
import StackEffect.Main
import StackEffect.Proofs.Command.Dump
import StackEffect.Proofs.Digraph
import StackEffect.Proofs.Digraph.Twin
import StackEffect.Proofs.Ends
import StackEffect.Proofs.Fresh
import StackEffect.Proofs.Inference.Blame
import StackEffect.Proofs.Inference.Canonical
import StackEffect.Proofs.Inference.Closing
import StackEffect.Proofs.Inference.Concrete
import StackEffect.Proofs.Inference.Definitions
import StackEffect.Proofs.Inference.Echo
import StackEffect.Proofs.Inference.Faithful
import StackEffect.Proofs.Inference.Grouping
import StackEffect.Proofs.Inference.Identity
import StackEffect.Proofs.Inference.Instance
import StackEffect.Proofs.Inference.Junction
import StackEffect.Proofs.Inference.Listing
import StackEffect.Proofs.Inference.Names
import StackEffect.Proofs.Inference.Overlap
import StackEffect.Proofs.Inference.Pass
import StackEffect.Proofs.Inference.PassThrough
import StackEffect.Proofs.Inference.Readback
import StackEffect.Proofs.Inference.Relabel
import StackEffect.Proofs.Inference.Relation
import StackEffect.Proofs.Inference.Renewal
import StackEffect.Proofs.Inference.Row
import StackEffect.Proofs.Inference.Spelling
import StackEffect.Proofs.Inference.Variant
import StackEffect.Proofs.Inference.Verdict
import StackEffect.Proofs.Kind.Address
import StackEffect.Proofs.Kind.Concrete
import StackEffect.Proofs.Kind.Induction
import StackEffect.Proofs.Kind.Relabel
import StackEffect.Proofs.Kind.Renaming
import StackEffect.Proofs.Kind.Shape
import StackEffect.Proofs.Kind.WellFormed
import StackEffect.Proofs.Lattice.Alias
import StackEffect.Proofs.Lattice.Declared
import StackEffect.Proofs.Lattice.Kinds
import StackEffect.Proofs.Lattice.Order
import StackEffect.Proofs.Lattice.Reduce
import StackEffect.Proofs.Lattice.Search
import StackEffect.Proofs.Lattice.Validate
import StackEffect.Proofs.Sequence
import StackEffect.Proofs.Settings
import StackEffect.Proofs.Signature.Derivation
import StackEffect.Proofs.Signature.Grammar
import StackEffect.Proofs.Signature.Reader
import StackEffect.Proofs.Signature.Tiling
import StackEffect.Proofs.Signature.Token
import StackEffect.Proofs.Signature.Written
import StackEffect.Proofs.Solve.Agreement
import StackEffect.Proofs.Solve.Alongside
import StackEffect.Proofs.Solve.Arity
import StackEffect.Proofs.Solve.Exact
import StackEffect.Proofs.Solve.Flat
import StackEffect.Proofs.Solve.Ground
import StackEffect.Proofs.Solve.Idempotent
import StackEffect.Proofs.Solve.Nominal
import StackEffect.Proofs.Solve.Outcome
import StackEffect.Proofs.Solve.Places
import StackEffect.Proofs.Solve.Progress
import StackEffect.Proofs.Solve.Ranking
import StackEffect.Proofs.Solve.Relabel
import StackEffect.Proofs.Solve.Representative
import StackEffect.Proofs.Solve.Resolve
import StackEffect.Proofs.Solve.Solution
import StackEffect.Proofs.Solve.Stacked
import StackEffect.Proofs.Solve.Thread
import StackEffect.Proofs.Solve.Unifier
import StackEffect.Proofs.Solve.Variant
import StackEffect.Proofs.Store.History
import StackEffect.Proofs.Store.Lookup
import StackEffect.Proofs.Store.Nesting
import StackEffect.Proofs.Store.Partition
import StackEffect.Proofs.Store.Provenance
import StackEffect.Proofs.Store.Unheard
import StackEffect.Proofs.Store.Unified
import StackEffect.Proofs.Store.Upkeep
import StackEffect.Proofs.Term.Readback
import StackEffect.Proofs.Term.Reader
import StackEffect.Proofs.Together
import StackEffect.Proofs.Unify.Again
import StackEffect.Proofs.Unify.Alongside
import StackEffect.Proofs.Unify.Calls
import StackEffect.Proofs.Unify.Contract
import StackEffect.Proofs.Unify.Ground
import StackEffect.Proofs.Unify.Layers
import StackEffect.Proofs.Unify.Occupied
import StackEffect.Proofs.Unify.Paired
import StackEffect.Proofs.Unify.Parts
import StackEffect.Proofs.Unify.Places
import StackEffect.Proofs.Unify.Region
import StackEffect.Proofs.Unify.Relabel
import StackEffect.Proofs.Unify.Settled
import StackEffect.Proofs.Unify.Shallow
import StackEffect.Proofs.Unify.Theory
import StackEffect.Proofs.Unify.Tidy
import StackEffect.Proofs.Unify.Unroll
import StackEffect.Proofs.Unify.Unseen
import StackEffect.Proofs.Unify.Valuation
import StackEffect.Proofs.Unify.Vocabulary
import StackEffect.Proofs.Unify.Watched
import StackEffect.Settings
import StackEffect.Signature.Reader
import StackEffect.Signature.Token
import StackEffect.Subtyping
import StackEffect.Term.Basic
import StackEffect.Term.Reader
import StackEffect.Text.Base64
import StackEffect.Text.Blank
import StackEffect.Text.Identifier
import StackEffect.Text.Number
import StackEffect.Text.Printable
import StackEffect.Text.Quoted
import StackEffect.Text.Ranges
import StackEffect.Text.Timestamp
import StackEffect.Text.Uppercase
import StackEffect.Text.Utf8
