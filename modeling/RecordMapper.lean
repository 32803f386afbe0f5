import RecordMapper.Database.Basic
import RecordMapper.Proofs.Materialize.RoundTrip
import RecordMapper.Proofs.Materialize.Children
import RecordMapper.Proofs.Materialize.Lookups
import RecordMapper.Proofs.Materialize.Shape
import RecordMapper.Proofs.Materialize.OwnColumns
import RecordMapper.Proofs.Materialize.Presence
import RecordMapper.Proofs.Materialize.Repetition
import RecordMapper.Proofs.Materialize.ColumnOrder
import RecordMapper.Proofs.Database.Outcome
import RecordMapper.Proofs.Blob.RoundTrip
import RecordMapper.Proofs.Database.Bracketing
import RecordMapper.Proofs.Query.RoundTrip
import RecordMapper.Proofs.Query.Placeholders
import RecordMapper.Proofs.Database.Checking
import RecordMapper.Proofs.Query.WellFormed
import RecordMapper.Proofs.Query.Budget
import RecordMapper.Proofs.Query.Reread
import RecordMapper.Proofs.Query.Whitespace
import RecordMapper.Proofs.Query.Composition
import RecordMapper.Proofs.Query.Retention
import RecordMapper.Proofs.Token.Lossless
import RecordMapper.Proofs.Query.Items
import RecordMapper.Proofs.Query.NestedComparison
import RecordMapper.Proofs.Query.NestedChain
import RecordMapper.Proofs.Query.Parentheses
import RecordMapper.Proofs.Query.Groups
import RecordMapper.Proofs.Query.Dangling
import RecordMapper.Proofs.Query.OwnEnd
import RecordMapper.Proofs.Query.Acceptance
import RecordMapper.Proofs.Query.Splicing
import RecordMapper.Proofs.Query.Renaming
import RecordMapper.Proofs.Materialize.Insertion
import RecordMapper.Proofs.Blob.Column
import RecordMapper.Proofs.Query.Unmentioned
import RecordMapper.Proofs.Query.Malformed
import RecordMapper.Proofs.Entry.History
import RecordMapper.Proofs.Database.Relations
import RecordMapper.Proofs.Database.Batch
import RecordMapper.Proofs.Materialize.Separation
import RecordMapper.Proofs.Value.Loading
import RecordMapper.Proofs.Token.Agreement
import RecordMapper.Proofs.Query.Slices
