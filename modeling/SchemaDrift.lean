import SchemaDrift.Assignment.Grid
import SchemaDrift.Main
import SchemaDrift.Proofs.Course
import SchemaDrift.Proofs.Memo
import SchemaDrift.Proofs.Json.Quoting
import SchemaDrift.Proofs.Json.Digits
import SchemaDrift.Proofs.Quoted
import SchemaDrift.Proofs.Writer
import SchemaDrift.Proofs.Json.Messages
import SchemaDrift.Proofs.Schema.Fingerprint
import SchemaDrift.Proofs.Transparency
import SchemaDrift.Proofs.Assignment
import SchemaDrift.Proofs.Fields
import SchemaDrift.Proofs.Json.Equality
import SchemaDrift.Proofs.Schema.Agreement
import SchemaDrift.Proofs.Silence
import SchemaDrift.Proofs.Schema.Reads
import SchemaDrift.Proofs.Schema.Reordered
import SchemaDrift.Proofs.Reflexivity
import SchemaDrift.Proofs.Acceptance
import SchemaDrift.Proofs.Compatibility
import SchemaDrift.Proofs.Relevance
import SchemaDrift.Proofs.Schema.Likeness
import SchemaDrift.Proofs.AdditionalProperties
import SchemaDrift.Proofs.KindChanges
import SchemaDrift.Proofs.Flat
import SchemaDrift.Proofs.Rewritings
import SchemaDrift.Proofs.Ties
import SchemaDrift.Proofs.Widening
import SchemaDrift.Proofs.Weight
import SchemaDrift.Proofs.DroppedBranch
import SchemaDrift.Proofs.AlignedPairs
import SchemaDrift.Proofs.Extension
import SchemaDrift.Proofs.Capacity
import SchemaDrift.Proofs.Json.Rekeyed
import SchemaDrift.Proofs.Schema.Rekeyed
import SchemaDrift.Proofs.Schema.Restated
import SchemaDrift.Proofs.Presentation
import SchemaDrift.Proofs.Branchless
import SchemaDrift.Proofs.Mirror
import SchemaDrift.Proofs.Transitivity
import SchemaDrift.Proofs.Completeness
import SchemaDrift.Proofs.Schema.Stated
import SchemaDrift.Proofs.Slips
import SchemaDrift.Proofs.Unreported
import SchemaDrift.Proofs.Descents
import SchemaDrift.Proofs.Paths
import SchemaDrift.Proofs.Schema.Faults
import SchemaDrift.Proofs.Refusals
import SchemaDrift.Proofs.Endings
import SchemaDrift.Proofs.DepthFaults
import SchemaDrift.Proofs.Totality
import SchemaDrift.Proofs.Rounding
import SchemaDrift.Proofs.Assignment.Ways
import SchemaDrift.Proofs.Assignment.Matching
import SchemaDrift.Proofs.Assignment.Potentials
import SchemaDrift.Proofs.Assignment.Bounds
import SchemaDrift.Proofs.Assignment.Following
import SchemaDrift.Proofs.Assignment.Rounded
import SchemaDrift.Proofs.Assignment.Grids
import SchemaDrift.Proofs.Schema.Grammar
import SchemaDrift.Proofs.Schema.Offenders
import SchemaDrift.Proofs.Schema.Lookup
import SchemaDrift.Proofs.Schema.Chains
import SchemaDrift.Proofs.Constants
import SchemaDrift.Proofs.Json.Reader
import SchemaDrift.Proofs.ExactValue
import SchemaDrift.Proofs.Ranges
import SchemaDrift.Proofs.Json.Content
import SchemaDrift.Proofs.Recency
import SchemaDrift.Proofs.Json.Numerals
import SchemaDrift.Proofs.Decimals
import SchemaDrift.Proofs.Json.Literals
import SchemaDrift.Proofs.Json.ReadBack
import SchemaDrift.Proofs.Wire
import SchemaDrift.Proofs.Schema.Keys
import SchemaDrift.Proofs.PricedPairs
import SchemaDrift.Proofs.Schema.Stated
import SchemaDrift.Proofs.Unreported
import SchemaDrift.Proofs.Slips
