import LinterClient.AtomicWrite
import LinterClient.Binary64
import LinterClient.Binary64.Shortest
import LinterClient.Command
import LinterClient.CommandLine
import LinterClient.CommandLine.Actions
import LinterClient.CommandLine.Files
import LinterClient.Connection
import LinterClient.DocumentSettings
import LinterClient.Documents
import LinterClient.FilePath
import LinterClient.FileSystem.Basic
import LinterClient.FileSystem.Script
import LinterClient.FixOnSave
import LinterClient.Framing
import LinterClient.Gate
import LinterClient.Glob
import LinterClient.IoError
import LinterClient.Json.Basic
import LinterClient.Json.Decode
import LinterClient.Json.Parser
import LinterClient.Json.Printer
import LinterClient.KeyPath
import LinterClient.Language
import LinterClient.Launch
import LinterClient.Main
import LinterClient.Memento
import LinterClient.Migration.Choice
import LinterClient.Migration.Record
import LinterClient.Proofs.AtomicWrite
import LinterClient.Proofs.Documents
import LinterClient.Proofs.FilePath
import LinterClient.Proofs.FileSystem.Contents
import LinterClient.Proofs.FileSystem.Interruption
import LinterClient.Proofs.FileSystem.Renaming
import LinterClient.Proofs.FileSystem.Undisturbed
import LinterClient.Proofs.Framing
import LinterClient.Proofs.Framing.Growing
import LinterClient.Proofs.Gate
import LinterClient.Proofs.Glob.Classes
import LinterClient.Proofs.Glob.Compilation
import LinterClient.Proofs.Glob.Ends
import LinterClient.Proofs.Glob.Language
import LinterClient.Proofs.Glob.Pattern
import LinterClient.Proofs.Glob.Preference
import LinterClient.Proofs.Glob.Reordering
import LinterClient.Proofs.Glob.Uniform
import LinterClient.Proofs.Json.Members
import LinterClient.Proofs.Json.Order
import LinterClient.Proofs.Json.Parts
import LinterClient.Proofs.Json.Records
import LinterClient.Proofs.KeyPath
import LinterClient.Proofs.LanguageSections
import LinterClient.Proofs.Memento
import LinterClient.Proofs.Migration.Attempts
import LinterClient.Proofs.Migration.Cascade
import LinterClient.Proofs.Migration.Changes
import LinterClient.Proofs.Migration.Comments
import LinterClient.Proofs.Migration.ConcurrentEdits
import LinterClient.Proofs.Migration.Convergence
import LinterClient.Proofs.Migration.DecodedEntries
import LinterClient.Proofs.Migration.Effects
import LinterClient.Proofs.Migration.Languages
import LinterClient.Proofs.Migration.OptOuts
import LinterClient.Proofs.Migration.Patches
import LinterClient.Proofs.Migration.Recording
import LinterClient.Proofs.Migration.Rules
import LinterClient.Proofs.Migration.Update
import LinterClient.Proofs.MissingLibrary
import LinterClient.Proofs.Regex.Language
import LinterClient.Proofs.Regex.Preference
import LinterClient.Proofs.Restart
import LinterClient.Proofs.Session.Calls
import LinterClient.Proofs.Session.Conduct
import LinterClient.Proofs.Session.Copies
import LinterClient.Proofs.Session.Correlation
import LinterClient.Proofs.Session.Deeds
import LinterClient.Proofs.Session.Events
import LinterClient.Proofs.Session.Gating
import LinterClient.Proofs.Session.Handling
import LinterClient.Proofs.Session.Handshake
import LinterClient.Proofs.Session.Inquiries
import LinterClient.Proofs.Session.Jobs
import LinterClient.Proofs.Session.Keeping
import LinterClient.Proofs.Session.Life
import LinterClient.Proofs.Session.Mirrors
import LinterClient.Proofs.Session.Modals
import LinterClient.Proofs.Session.Notices
import LinterClient.Proofs.Session.Notifications
import LinterClient.Proofs.Session.Operations
import LinterClient.Proofs.Session.Order
import LinterClient.Proofs.Session.Progress
import LinterClient.Proofs.Session.Reading
import LinterClient.Proofs.Session.Records
import LinterClient.Proofs.Session.Replies
import LinterClient.Proofs.Session.Requesting
import LinterClient.Proofs.Session.Restarting
import LinterClient.Proofs.Session.Roles
import LinterClient.Proofs.Session.Runs
import LinterClient.Proofs.Session.Sending
import LinterClient.Proofs.Session.Settling
import LinterClient.Proofs.Session.Silencing
import LinterClient.Proofs.Session.Sparing
import LinterClient.Proofs.Session.Syncing
import LinterClient.Proofs.Session.Traffic
import LinterClient.Proofs.Session.Turns
import LinterClient.Proofs.Settings.Entries
import LinterClient.Proofs.Store.Comments
import LinterClient.Proofs.Store.FileUpdates
import LinterClient.Proofs.Store.Files
import LinterClient.Proofs.Store.KeyValue
import LinterClient.Proofs.Store.Lawful
import LinterClient.Proofs.Store.Locality
import LinterClient.Proofs.Store.Memory
import LinterClient.Proofs.Store.Objects
import LinterClient.Proofs.Task.Bystanders
import LinterClient.Proofs.Task.Chronicle
import LinterClient.Proofs.Task.Crew
import LinterClient.Proofs.Task.Goes
import LinterClient.Proofs.Task.Interference
import LinterClient.Proofs.Task.Pool
import LinterClient.Proofs.Text.Lossy
import LinterClient.Proofs.Text.Utf8
import LinterClient.Proofs.Toml.Comments
import LinterClient.Proofs.Toml.Comments.Assembly
import LinterClient.Proofs.Toml.Comments.Editing
import LinterClient.Proofs.Toml.Comments.Legible
import LinterClient.Proofs.Toml.Comments.Pieces
import LinterClient.Proofs.Toml.Comments.Printing
import LinterClient.Proofs.Toml.Comments.Quoted
import LinterClient.Proofs.Toml.Comments.Reading
import LinterClient.Proofs.Toml.Comments.Words
import LinterClient.Proofs.Toml.Comments.Writing
import LinterClient.Proofs.Toml.Editing
import LinterClient.Proofs.Toml.Encoding
import LinterClient.Proofs.Toml.Reading
import LinterClient.Proofs.Toml.Representable
import LinterClient.Proofs.Toml.Shown
import LinterClient.Proofs.Url
import LinterClient.Proofs.WorkingDirectory
import LinterClient.Proofs.WorkingDirectory.Alternatives
import LinterClient.Proofs.WorkingDirectory.Ancestors
import LinterClient.Proofs.WorkingDirectory.Directories
import LinterClient.Proofs.WorkingDirectory.Patterns
import LinterClient.Proofs.WorkingDirectory.Placement
import LinterClient.Proofs.Workspace
import LinterClient.Proofs.Workspace.Membership
import LinterClient.Protocol.Message
import LinterClient.Protocol.Payload
import LinterClient.Regex.Basic
import LinterClient.Regex.Parser
import LinterClient.Restart
import LinterClient.Session.Answering
import LinterClient.Session.Linking
import LinterClient.Session.Migrating
import LinterClient.Session.Serving
import LinterClient.Session.State
import LinterClient.Session.Windowing
import LinterClient.Settings.CodeActions
import LinterClient.Settings.Defaults
import LinterClient.Settings.Keys
import LinterClient.Settings.Options
import LinterClient.Settings.Record
import LinterClient.Settings.ValidateEntry
import LinterClient.Settings.WorkingDirectory
import LinterClient.Simulation.Execution
import LinterClient.Simulation.Machine
import LinterClient.Simulation.ServerScript
import LinterClient.Simulation.Servers
import LinterClient.Simulation.Surroundings
import LinterClient.StatusItem
import LinterClient.Store.Basic
import LinterClient.Store.Files
import LinterClient.Store.Memory
import LinterClient.Task.Program
import LinterClient.Task.Schedule
import LinterClient.Task.System
import LinterClient.Terminal
import LinterClient.Text.Blank
import LinterClient.Text.Quoted
import LinterClient.Text.Utf8
import LinterClient.Tier
import LinterClient.Toml.Datetime
import LinterClient.Toml.Document
import LinterClient.Toml.Edit
import LinterClient.Toml.Item
import LinterClient.Toml.Number
import LinterClient.Toml.Parser
import LinterClient.Toml.Printer
import LinterClient.Toml.Quoted
import LinterClient.Toml.Value
import LinterClient.Url.Basic
import LinterClient.Url.File
import LinterClient.Url.Host
import LinterClient.Url.Parser
import LinterClient.Url.Percent
import LinterClient.Window
import LinterClient.WorkingDirectory
import LinterClient.Workspace
