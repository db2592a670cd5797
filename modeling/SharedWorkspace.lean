import SharedWorkspace.Config.File
import SharedWorkspace.Dispatch.Execute
import SharedWorkspace.Handle
import SharedWorkspace.Json.Remote
import SharedWorkspace.Json.Workspace
import SharedWorkspace.Operation.Command
import SharedWorkspace.Progress.Board
import SharedWorkspace.Proofs.Dispatch.Cancellation
import SharedWorkspace.Proofs.Dispatch.Scopes
import SharedWorkspace.Registry.Run
import SharedWorkspace.Rehearsal.Desk
import SharedWorkspace.Rehearsal.Monitors
import SharedWorkspace.Rehearsal.Registry
import SharedWorkspace.Rehearsal.Review
import SharedWorkspace.Rehearsal.Scene
import SharedWorkspace.Remote.EntryStore
import SharedWorkspace.Review.Basic
import SharedWorkspace.Scope.Guard
import SharedWorkspace.Scope.LockTable
import SharedWorkspace.Text.Hex
import SharedWorkspace.Text.Utf8
import SharedWorkspace.Proofs.Operation.Request
import SharedWorkspace.Proofs.Dispatch.Commands
import SharedWorkspace.Proofs.Remote.Undertaking
import SharedWorkspace.Proofs.Operation.Success
import SharedWorkspace.Proofs.Dispatch.Requests
import SharedWorkspace.Proofs.Dispatch.Accounting
import SharedWorkspace.Proofs.Diff.Block
import SharedWorkspace.Proofs.Diff.Groups
import SharedWorkspace.Proofs.Diff.Hunks
import SharedWorkspace.Proofs.Review.Matching
import SharedWorkspace.Proofs.Remote.Contents
import SharedWorkspace.Proofs.Registry.Mapping
import SharedWorkspace.Proofs.Scope.Clients
import SharedWorkspace.Proofs.Instant
import SharedWorkspace.Proofs.Json.Encodings
import SharedWorkspace.Proofs.Review.Edits
import SharedWorkspace.Proofs.Dispatch.Refresh
import SharedWorkspace.Proofs.Config.File
import SharedWorkspace.Proofs.Remote.EntryStore
import SharedWorkspace.Proofs.Dispatch.Rivalry
import SharedWorkspace.Proofs.Dispatch.Equivalence
import SharedWorkspace.Proofs.Registry.Acts
import SharedWorkspace.Proofs.Registry.Dues
import SharedWorkspace.Proofs.Registry.Announcements
import SharedWorkspace.Proofs.Registry.Lookups
import SharedWorkspace.Proofs.Progress.Conservation
import SharedWorkspace.Proofs.Remote.Listing
import SharedWorkspace.Proofs.Remote.Answers
import SharedWorkspace.Proofs.Review.Classification
import SharedWorkspace.Proofs.Review.Overrides
import SharedWorkspace.Proofs.Progress.Scaling
import SharedWorkspace.Proofs.Dispatch.Charges
import SharedWorkspace.Proofs.Remote.Relative
import SharedWorkspace.Proofs.Resource
import SharedWorkspace.Proofs.Review.Unified
import SharedWorkspace.Proofs.Review.Audience
