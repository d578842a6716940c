import DefCatalog.Cache.Error
import DefCatalog.Cache.File
import DefCatalog.Cache.Snapshot
import DefCatalog.Cache.Staleness
import DefCatalog.Catalog.Basic
import DefCatalog.Catalog.Register
import DefCatalog.CommandLine.Arguments
import DefCatalog.CommandLine.Environment
import DefCatalog.CommandLine.Output
import DefCatalog.CommandLine.Run
import DefCatalog.Completion.Suggestion
import DefCatalog.Completion.Trigger
import DefCatalog.Files.Bound
import DefCatalog.Files.Display
import DefCatalog.Files.Edit
import DefCatalog.Files.Error
import DefCatalog.Files.Path
import DefCatalog.Files.Resolve
import DefCatalog.Files.Step
import DefCatalog.Files.System
import DefCatalog.Json.Basic
import DefCatalog.Json.Printer
import DefCatalog.Json.Reader
import DefCatalog.Json.Token
import DefCatalog.Main
import DefCatalog.Markup.Extract
import DefCatalog.Markup.Kind
import DefCatalog.Markup.TagSpan
import DefCatalog.Number.Binary
import DefCatalog.Number.Decimal
import DefCatalog.Provider.Basic
import DefCatalog.Provider.Dialogue
import DefCatalog.Report.Failure
import DefCatalog.Report.LogFilter
import DefCatalog.Report.Noted
import DefCatalog.Report.Notice
import DefCatalog.Report.Wording
import DefCatalog.Scan.Descent
import DefCatalog.Scan.Encounter
import DefCatalog.Scan.Error
import DefCatalog.Scan.Exchange
import DefCatalog.Scan.Folder
import DefCatalog.Scan.Harvest
import DefCatalog.Scan.Journey
import DefCatalog.Scan.Progress
import DefCatalog.Scan.Run
import DefCatalog.Scan.Tour
import DefCatalog.Scan.Worker
import DefCatalog.Settings.Basic
import DefCatalog.Settings.Locations
import DefCatalog.Text.Basic
import DefCatalog.Text.Blank
import DefCatalog.Text.CaseTable
import DefCatalog.Text.LowerCase
import DefCatalog.Text.Utf8
import DefCatalog.Time.Calendar
import DefCatalog.Time.Instant
import DefCatalog.Time.Timestamp
import DefCatalog.Proofs.Cache.Atomicity
import DefCatalog.Proofs.Cache.File
import DefCatalog.Proofs.Cache.Layout
import DefCatalog.Proofs.Cache.Preparing
import DefCatalog.Proofs.Cache.Resaving
import DefCatalog.Proofs.Cache.RoundTrip
import DefCatalog.Proofs.Cache.Saving
import DefCatalog.Proofs.Cache.Slot
import DefCatalog.Proofs.Cache.Snapshot
import DefCatalog.Proofs.Catalog.Filing
import DefCatalog.Proofs.Catalog.History
import DefCatalog.Proofs.Catalog.Register
import DefCatalog.Proofs.Catalog.Union
import DefCatalog.Proofs.Catalog.WellFiled
import DefCatalog.Proofs.CommandLine.Printed
import DefCatalog.Proofs.Completion.Lookup
import DefCatalog.Proofs.Completion.Suggestion
import DefCatalog.Proofs.Completion.Trigger
import DefCatalog.Proofs.Files.Ancestors
import DefCatalog.Proofs.Files.Asking
import DefCatalog.Proofs.Files.Components
import DefCatalog.Proofs.Files.Contents
import DefCatalog.Proofs.Files.Directories
import DefCatalog.Proofs.Files.Display
import DefCatalog.Proofs.Files.Entry
import DefCatalog.Proofs.Files.Lengths
import DefCatalog.Proofs.Files.Replace
import DefCatalog.Proofs.Files.Shortening
import DefCatalog.Proofs.Files.Sibling
import DefCatalog.Proofs.Files.Standing
import DefCatalog.Proofs.Files.Upkeep
import DefCatalog.Proofs.Files.Walk
import DefCatalog.Proofs.Files.Writing
import DefCatalog.Proofs.Json.Lexemes
import DefCatalog.Proofs.Json.Record
import DefCatalog.Proofs.Json.RoundTrip
import DefCatalog.Proofs.Json.Spelling
import DefCatalog.Proofs.Markup.BackwardScan
import DefCatalog.Proofs.Markup.CleanText
import DefCatalog.Proofs.Markup.Document
import DefCatalog.Proofs.Markup.ForwardScan
import DefCatalog.Proofs.Markup.LooseNames
import DefCatalog.Proofs.Markup.NameAttribute
import DefCatalog.Proofs.Markup.NameScan
import DefCatalog.Proofs.Markup.NamedTags
import DefCatalog.Proofs.Markup.Occurrences
import DefCatalog.Proofs.Markup.Owners
import DefCatalog.Proofs.Markup.Tree
import DefCatalog.Proofs.Number.Decimal
import DefCatalog.Proofs.Provider.Dialogue
import DefCatalog.Proofs.Provider.Loading
import DefCatalog.Proofs.Provider.Transparency
import DefCatalog.Proofs.Scan.Agreement
import DefCatalog.Proofs.Scan.Consulting
import DefCatalog.Proofs.Scan.Coverage
import DefCatalog.Proofs.Scan.Damage
import DefCatalog.Proofs.Scan.Discovery
import DefCatalog.Proofs.Scan.Exchange
import DefCatalog.Proofs.Scan.Gathering
import DefCatalog.Proofs.Scan.Journey
import DefCatalog.Proofs.Scan.OpenDirectories
import DefCatalog.Proofs.Scan.Opening
import DefCatalog.Proofs.Scan.Outcome
import DefCatalog.Proofs.Scan.Reports
import DefCatalog.Proofs.Scan.Touring
import DefCatalog.Proofs.Settings.Register
import DefCatalog.Proofs.Text.ByteOrder
import DefCatalog.Proofs.Text.Context
import DefCatalog.Proofs.Text.LowerCase
import DefCatalog.Proofs.Text.Malformed
import DefCatalog.Proofs.Text.Order
import DefCatalog.Proofs.Text.Pieces
import DefCatalog.Proofs.Text.Utf8
import DefCatalog.Proofs.Time.Calendar
import DefCatalog.Proofs.Time.Timestamp
