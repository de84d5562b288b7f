import TableQuery.Main
import TableQuery.Operator.Json
import TableQuery.Proofs.Attempts
import TableQuery.Proofs.ClonedSessions
import TableQuery.Proofs.ComposedFilters
import TableQuery.Proofs.ComputedCells
import TableQuery.Proofs.DenotedKeys
import TableQuery.Proofs.DirectoryPaths
import TableQuery.Proofs.Engines.LogicalConditions
import TableQuery.Proofs.Engines.Runs
import TableQuery.Proofs.FallbackLoaders
import TableQuery.Proofs.FilteredRows
import TableQuery.Proofs.GroupItems
import TableQuery.Proofs.GroupedRows
import TableQuery.Proofs.IntegerArithmetic
import TableQuery.Proofs.JoinedRows
import TableQuery.Proofs.LimitedRows
import TableQuery.Proofs.Membership
import TableQuery.Proofs.OperatorTexts
import TableQuery.Proofs.OrderedRows
import TableQuery.Proofs.Phases
import TableQuery.Proofs.Placewise
import TableQuery.Proofs.ProjectedRows
import TableQuery.Proofs.ReadColumns
import TableQuery.Proofs.Reading.Descent
import TableQuery.Proofs.Reading.Excerpts
import TableQuery.Proofs.Reading.IntegerTexts
import TableQuery.Proofs.Reading.Precedence
import TableQuery.Proofs.Reading.QuotedNames
import TableQuery.Proofs.Reading.RespacedTexts
import TableQuery.Proofs.Reading.StrippedTexts
import TableQuery.Proofs.RearrangedKeys
import TableQuery.Proofs.ReorderedRows
import TableQuery.Proofs.ShapedRuns
import TableQuery.Proofs.SingleValues
import TableQuery.Proofs.SortOrder
import TableQuery.Proofs.Stages
import TableQuery.Proofs.Translation
import TableQuery.Proofs.ValidatedConditions
import TableQuery.Session.Workspace
