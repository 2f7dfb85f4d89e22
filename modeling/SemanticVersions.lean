import SemanticVersions.Grammar.Table
import SemanticVersions.Proofs.Comparator.Format
import SemanticVersions.Proofs.Comparator.Intersection
import SemanticVersions.Proofs.Comparator.Interval
import SemanticVersions.Proofs.Document
import SemanticVersions.Proofs.Grammar.Entries
import SemanticVersions.Proofs.Range.Between
import SemanticVersions.Proofs.Range.Bounds
import SemanticVersions.Proofs.Range.Caret
import SemanticVersions.Proofs.Range.CommonVersion
import SemanticVersions.Proofs.Range.Comparison
import SemanticVersions.Proofs.Range.Equality
import SemanticVersions.Proofs.Range.Extent
import SemanticVersions.Proofs.Range.Gaps
import SemanticVersions.Proofs.Range.Intersection
import SemanticVersions.Proofs.Range.Invariant
import SemanticVersions.Proofs.Range.Leading
import SemanticVersions.Proofs.Range.Limits
import SemanticVersions.Proofs.Range.Normal
import SemanticVersions.Proofs.Range.Plain
import SemanticVersions.Proofs.Range.Prerelease
import SemanticVersions.Proofs.Range.Refusal
import SemanticVersions.Proofs.Range.Respacing
import SemanticVersions.Proofs.Range.Shape
import SemanticVersions.Proofs.Range.Simplification
import SemanticVersions.Proofs.Range.Stability
import SemanticVersions.Proofs.Range.Symmetry
import SemanticVersions.Proofs.Range.Tilde
import SemanticVersions.Proofs.Range.Tokens
import SemanticVersions.Proofs.Range.Union
import SemanticVersions.Proofs.Selection
import SemanticVersions.Proofs.Sorting
import SemanticVersions.Proofs.Text.Encoding
import SemanticVersions.Proofs.Version.Ascent
import SemanticVersions.Proofs.Version.BuildOrder
import SemanticVersions.Proofs.Version.FirstDifference
import SemanticVersions.Proofs.Version.Format
import SemanticVersions.Proofs.Version.Increment
import SemanticVersions.Proofs.Version.LeastStep
import SemanticVersions.Proofs.Version.NamedLine
import SemanticVersions.Proofs.Version.Succession
import SemanticVersions.Range.Record
import SemanticVersions.Selection
import SemanticVersions.Version.Increment
