import SourceDelta.Command.Report
import SourceDelta.Command.Run
import SourceDelta.CommandLine
import SourceDelta.Config
import SourceDelta.Config.Yaml
import SourceDelta.Diff.Document
import SourceDelta.Diff.Fault
import SourceDelta.Diff.Hunk
import SourceDelta.Diff.HunkHeader
import SourceDelta.Diff.MarkerLine
import SourceDelta.DiffSet
import SourceDelta.DiffSet.Json
import SourceDelta.Failure
import SourceDelta.FileChange
import SourceDelta.FileSystem.Error
import SourceDelta.FileSystem.Staged
import SourceDelta.FileSystem.Tree
import SourceDelta.Git
import SourceDelta.Glob
import SourceDelta.Glob.Expression
import SourceDelta.Glob.Matching
import SourceDelta.Glob.Token
import SourceDelta.Instant
import SourceDelta.Journal
import SourceDelta.Json.Float
import SourceDelta.Json.Printer
import SourceDelta.Json.Reader
import SourceDelta.Json.Value
import SourceDelta.LineRun
import SourceDelta.Path
import SourceDelta.Permissions
import SourceDelta.Position
import SourceDelta.Proofs.Endings
import SourceDelta.Script
import SourceDelta.Store
import SourceDelta.Store.FlagRegistry
import SourceDelta.Store.Key
import SourceDelta.Store.Layout
import SourceDelta.Strategy
import SourceDelta.Text.Blank
import SourceDelta.Text.Cut
import SourceDelta.Text.Digits
import SourceDelta.Text.Line
import SourceDelta.Text.Utf8
import SourceDelta.Text.WordChar
import SourceDelta.Verbosity
import SourceDelta.Word
import SourceDelta.Workspace
import SourceDelta.World
import SourceDelta.Yaml.Cell
import SourceDelta.Yaml.Node
import SourceDelta.Yaml.Rendering
import SourceDelta.Yaml.Scalar
import SourceDelta.Yaml.Token
import SourceDelta.Main
import SourceDelta.Proofs.Lookup
import SourceDelta.Proofs.Nodes
import SourceDelta.Proofs.FileNames
import SourceDelta.Proofs.Sites
import SourceDelta.Proofs.Footing
import SourceDelta.Proofs.Contents
import SourceDelta.Proofs.Staging
import SourceDelta.Proofs.Moves
import SourceDelta.Proofs.Upkeep
import SourceDelta.Proofs.Numerals
import SourceDelta.Proofs.JsonReading
import SourceDelta.Proofs.Registry
import SourceDelta.Proofs.Opening
import SourceDelta.Proofs.Listing
import SourceDelta.Proofs.Histories
import SourceDelta.Proofs.Changes
import SourceDelta.Proofs.Rollback
import SourceDelta.Proofs.Runs
import SourceDelta.Proofs.Reading
import SourceDelta.Proofs.Restoring
import SourceDelta.Proofs.Interruption
import SourceDelta.Proofs.Failing
import SourceDelta.Proofs.HunkReading
import SourceDelta.Proofs.Durability
import SourceDelta.Proofs.Chronicles
import SourceDelta.Proofs.Answers
import SourceDelta.Proofs.FlagHistory
import SourceDelta.Proofs.Crashes
import SourceDelta.Proofs.EditHunks
import SourceDelta.Proofs.MarkerLines
import SourceDelta.Proofs.Translation
import SourceDelta.Proofs.Refusals
import SourceDelta.Proofs.Shelves
import SourceDelta.Proofs.Separation
import SourceDelta.Proofs.ContextLines
import SourceDelta.Proofs.LineAccounting
import SourceDelta.Proofs.Offsets
import SourceDelta.Proofs.Joining
import SourceDelta.Proofs.Parts
import SourceDelta.Proofs.EntryKeys
import SourceDelta.Proofs.PlainNames
import SourceDelta.Proofs.Enumeration
import SourceDelta.Proofs.Displacement
import SourceDelta.Proofs.Marks
import SourceDelta.Proofs.Selection
import SourceDelta.Proofs.Skipping
import SourceDelta.Proofs.Instants
import SourceDelta.Proofs.JournalReading
import SourceDelta.Proofs.Accounts
import SourceDelta.Proofs.Checked
import SourceDelta.Proofs.CheckedQuotes
import SourceDelta.Proofs.CheckedNames
import SourceDelta.Proofs.CheckedHunks
import SourceDelta.Proofs.CheckedParsing
import SourceDelta.Proofs.LinePlaces
import SourceDelta.Proofs.LineByLine
import SourceDelta.Proofs.LineOrder
import SourceDelta.Proofs.Overflow
import SourceDelta.Proofs.QuotedNames
import SourceDelta.Proofs.Coalescing
import SourceDelta.Proofs.BinaryEntries
import SourceDelta.Proofs.FoundFiles
import SourceDelta.Proofs.FlagDocument
import SourceDelta.Proofs.PathIndex
import SourceDelta.Proofs.VariabilityLines
import SourceDelta.Proofs.Verdicts
import SourceDelta.Proofs.JsonTakes
import SourceDelta.Proofs.JsonSteps
import SourceDelta.Proofs.JsonEnds
import SourceDelta.Proofs.JsonDepth
import SourceDelta.Proofs.JsonPrinted
import SourceDelta.Proofs.JournalGrowth
import SourceDelta.Proofs.HunkHeaders
import SourceDelta.Proofs.WrittenSets
import SourceDelta.Proofs.Faults
import SourceDelta.Proofs.WholeWrites
import SourceDelta.Proofs.AcrossDevices
