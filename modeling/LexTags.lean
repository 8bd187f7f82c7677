import LexTags.Certification
import LexTags.CharSet.Algebra
import LexTags.Json.Decode
import LexTags.Json.Encode
import LexTags.Pattern.Semantics
import LexTags.Tagged.Semantics
import LexTags.Proofs.Intervals
import LexTags.Proofs.NormalForm
import LexTags.Proofs.SetAlgebra
import LexTags.Proofs.Acceptance
import LexTags.Proofs.Runs
import LexTags.Proofs.Counting
import LexTags.Proofs.Log
import LexTags.Proofs.Reads
import LexTags.Proofs.Shadowing
import LexTags.Proofs.Dropping
import LexTags.Proofs.Spine
import LexTags.Proofs.EncodedTags
import LexTags.Proofs.Ledger
import LexTags.Proofs.Sweep
import LexTags.Proofs.Placement
import LexTags.Proofs.Layout
import LexTags.Proofs.Exactness
import LexTags.Proofs.Distances
import LexTags.Proofs.Compilation
import LexTags.Proofs.Ownership
import LexTags.Proofs.CellCount
import LexTags.Proofs.Relocation
import LexTags.Proofs.Repeats
import LexTags.Proofs.Matching
import LexTags.Proofs.Association
import LexTags.Proofs.Agreement
import LexTags.Proofs.Pruning
import LexTags.Proofs.Growth
import LexTags.Proofs.Construction
import LexTags.Proofs.ShadowedMatch
import LexTags.Proofs.ReadBack
import LexTags.Proofs.Steps
import LexTags.Proofs.Sampling
import LexTags.Proofs.Truncation
import LexTags.Proofs.Decoding
import LexTags.Proofs.Certified
import LexTags.Proofs.FirstMatch
import LexTags.Proofs.Certification
import LexTags.Proofs.Linking
import LexTags.Proofs.Failures
import LexTags.Proofs.RoundTrip
import LexTags.Proofs.Leaves
import LexTags.Proofs.Faults
import LexTags.Proofs.Pooling
import LexTags.Proofs.Measures
import LexTags.Proofs.Bounds
import LexTags.Proofs.Guards
import LexTags.Proofs.EncodedFacts
import LexTags.Proofs.Spelling
import LexTags.Proofs.Comparison
