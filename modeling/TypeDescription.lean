import TypeDescription.Graph.Show
import TypeDescription.Graph.Normalize
import TypeDescription.Graph.Decode
import TypeDescription.Graph.Equality
import TypeDescription.Graph.Interchange
import TypeDescription.Main
import TypeDescription.Proofs.Fields
import TypeDescription.Proofs.Graph.Encoding
import TypeDescription.Proofs.Run
import TypeDescription.Proofs.Outcomes
import TypeDescription.Proofs.Graph.Decoding
import TypeDescription.Proofs.Graph.Isomorphism
import TypeDescription.Proofs.Graph.RoundTrip
import TypeDescription.Proofs.Graph.Tour
import TypeDescription.Proofs.Graph.Planting
import TypeDescription.Proofs.Graph.Emission
import TypeDescription.Proofs.Graph.Rewriting
import TypeDescription.Proofs.Graph.Legible
import TypeDescription.Proofs.Graph.Reencoding
import TypeDescription.Proofs.Graph.Tokens
import TypeDescription.Proofs.Graph.Levels
import TypeDescription.Proofs.Graph.Normalization
import TypeDescription.Proofs.Graph.Interchange
import TypeDescription.Proofs.Graph.NormalizedJson
import TypeDescription.Proofs.Graph.NormalForm
import TypeDescription.Proofs.Graph.Mirroring
import TypeDescription.Proofs.Graph.Persistence
import TypeDescription.Proofs.Graph.Comparison
import TypeDescription.Proofs.Graph.EqualJson
import TypeDescription.Proofs.Graph.Joins
import TypeDescription.Proofs.Graph.Lookup
import TypeDescription.Proofs.Graph.Nesting
import TypeDescription.Proofs.Graph.Copies
import TypeDescription.Proofs.Graph.Addresses
import TypeDescription.Proofs.Graph.Rounds
import TypeDescription.Proofs.Graph.Stages
import TypeDescription.Proofs.Graph.Resolution
import TypeDescription.Proofs.Graph.Chains
import TypeDescription.Proofs.Graph.Overwriting
import TypeDescription.Proofs.Depth
import TypeDescription.Proofs.Fixture.Ancestry
import TypeDescription.Proofs.Fixture.Loading
import TypeDescription.Proofs.Fixture.Queries
import TypeDescription.Proofs.Fixture.Inheritance
import TypeDescription.Proofs.Fixture.Rearranged
import TypeDescription.Proofs.Reflected.Steps
import TypeDescription.Proofs.Reflected.State
import TypeDescription.Proofs.Reflected.Calls
import TypeDescription.Proofs.Reflected.Rollback
import TypeDescription.Proofs.Reflected.Coherence
import TypeDescription.Proofs.Reflected.Walks
import TypeDescription.Proofs.Reflected.CacheInvariant
import TypeDescription.Proofs.Reflected.ClassNodes
import TypeDescription.Proofs.Reflected.Matching
import TypeDescription.Proofs.Reflected.Outline
import TypeDescription.Proofs.Reflected.Drawn
import TypeDescription.Proofs.Reflected.WarmCache
import TypeDescription.Proofs.Reflected.Asking
import TypeDescription.Proofs.Reflected.Acceptance
import TypeDescription.Proofs.Reflected.Dispatch
import TypeDescription.Proofs.Reflected.Collapse
import TypeDescription.Proofs.Reflected.Unions
import TypeDescription.Proofs.Reflected.Notices
import TypeDescription.Proofs.Reflected.Aliases
import TypeDescription.Proofs.Literal.Written
import TypeDescription.Proofs.Literal.Counted
import TypeDescription.Proofs.Literal.Interchange
import TypeDescription.Proofs.Graph.Limits
import TypeDescription.Proofs.Literal.Rendering
import TypeDescription.Proofs.Literal.Data
import TypeDescription.Proofs.Literal.Generation
import TypeDescription.Proofs.Literal.Finished
import TypeDescription.Proofs.Literal.ReadBack
import TypeDescription.Proofs.Literal.Depiction
import TypeDescription.Proofs.Reflected.Answered
import TypeDescription.Proofs.Literal.Faithful
import TypeDescription.Proofs.Literal.Ownership
import TypeDescription.Proofs.Literal.Layout
import TypeDescription.Proofs.Literal.Transcript
import TypeDescription.Proofs.Literal.Tracing
import TypeDescription.Proofs.Literal.Once
import TypeDescription.Proofs.Literal.Composition
import TypeDescription.Proofs.Literal.Capacity
import TypeDescription.Proofs.Literal.NestedUnions
import TypeDescription.Proofs.Literal.Positions
import TypeDescription.Proofs.Literal.Marking
import TypeDescription.Proofs.Literal.Declarations
import TypeDescription.Proofs.Literal.Reading
import TypeDescription.Proofs.Literal.Embedding
import TypeDescription.Proofs.CommandLine.Formats
