import VersionConstraints.Comparator.Satisfaction
import VersionConstraints.Constraint.Requirement
import VersionConstraints.Diagnostics.Datum
import VersionConstraints.Diagnostics.Options
import VersionConstraints.Proofs.Sorting.Run
import VersionConstraints.Semver.Ordinary
import VersionConstraints.Proofs.Sorting.Merge
import VersionConstraints.Proofs.Sorting.Sort
import VersionConstraints.Proofs.Sorting.Permutation
import VersionConstraints.Proofs.Sorting.Failure
import VersionConstraints.Proofs.Semver.WellFormed
import VersionConstraints.Proofs.Semver.Reading
import VersionConstraints.Proofs.Semver.Precedence
import VersionConstraints.Proofs.Interval.Cut
import VersionConstraints.Proofs.Interval.Bound
import VersionConstraints.Proofs.Interval.Span
import VersionConstraints.Proofs.Interval.Meaning
import VersionConstraints.Proofs.Interval.Normalize
import VersionConstraints.Proofs.Interval.Order
import VersionConstraints.Proofs.Range.Canonical
import VersionConstraints.Proofs.Range.CanonicalForm
import VersionConstraints.Proofs.Range.Intersection
import VersionConstraints.Proofs.Constraint.Conjunction
import VersionConstraints.Proofs.Constraint.Laws
import VersionConstraints.Proofs.Constraint.Regrouping
import VersionConstraints.Proofs.Constraint.Equality
import VersionConstraints.Proofs.Interval.Folding
import VersionConstraints.Proofs.Interval.Tier
import VersionConstraints.Proofs.Interval.Normal
import VersionConstraints.Proofs.Interval.Comparable
import VersionConstraints.Proofs.Interval.Limits
import VersionConstraints.Proofs.Interval.Admission
import VersionConstraints.Proofs.Comparison
import VersionConstraints.Proofs.Interval.Candidate
import VersionConstraints.Proofs.Interval.Failure
import VersionConstraints.Proofs.Expression.Alternatives
import VersionConstraints.Proofs.Range.Folding
import VersionConstraints.Proofs.Range.Normal
import VersionConstraints.Proofs.Constraint.Reachable
import VersionConstraints.Proofs.Constraint.Emptiness
import VersionConstraints.Proofs.Semver.Canonical
import VersionConstraints.Proofs.Semver.Limits
import VersionConstraints.Proofs.Text.Words
import VersionConstraints.Proofs.Expression.Scan
import VersionConstraints.Proofs.Expression.Spacing
import VersionConstraints.Proofs.Expression.Pieces
import VersionConstraints.Proofs.Expression.Rereading
import VersionConstraints.Proofs.Range.Rereading
import VersionConstraints.Proofs.Interval.Relax
import VersionConstraints.Proofs.Interval.Canonical
import VersionConstraints.Proofs.Interval.Display
import VersionConstraints.Proofs.Interval.Reading
import VersionConstraints.Proofs.Range.Display
import VersionConstraints.Proofs.Constraint.Display
import VersionConstraints.Proofs.Range.Roundtrip
import VersionConstraints.Proofs.Range.Limits
import VersionConstraints.Proofs.Constraint.Compatibility
import VersionConstraints.Proofs.Constraint.Declaration
import VersionConstraints.Proofs.Constraint.Limits
import VersionConstraints.Proofs.Constraint.Representation
import VersionConstraints.Proofs.Interval.Provenance
import VersionConstraints.Proofs.Constraint.Provenance
import VersionConstraints.Proofs.Range.Text
import VersionConstraints.Proofs.Range.Single
import VersionConstraints.Proofs.Constraint.VersionText
import VersionConstraints.Proofs.Semver.Confusion
import VersionConstraints.Proofs.Constraint.Pin
import VersionConstraints.Proofs.Interval.Release
import VersionConstraints.Proofs.Expression.Restrictions
import VersionConstraints.Proofs.Expression.Stops
import VersionConstraints.Proofs.Expression.Boundary
import VersionConstraints.Proofs.Expression.Commas
import VersionConstraints.Proofs.Expression.Operands
import VersionConstraints.Proofs.Range.Commas
import VersionConstraints.Proofs.Text.Parts
import VersionConstraints.Proofs.Interval.Read
import VersionConstraints.Proofs.Interval.Loose
import VersionConstraints.Proofs.Range.Loose
import VersionConstraints.Proofs.Expression.Superfluous
import VersionConstraints.Proofs.Expression.Union
import VersionConstraints.Proofs.Range.TwoReadings
import VersionConstraints.Proofs.Range.Union
import VersionConstraints.Proofs.Range.UnionOrder
import VersionConstraints.Proofs.Constraint.Idempotence
