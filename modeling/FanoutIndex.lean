import FanoutIndex.Access.Call
import FanoutIndex.Access.Event
import FanoutIndex.Access.Index
import FanoutIndex.Access.Lemmas
import FanoutIndex.Access.Run
import FanoutIndex.Access.Search
import FanoutIndex.Concurrent.Stage
import FanoutIndex.Concurrent.System
import FanoutIndex.Concurrent.Workload
import FanoutIndex.Config
import FanoutIndex.Fault
import FanoutIndex.Key.Basic
import FanoutIndex.Key.Order
import FanoutIndex.Key.Text
import FanoutIndex.Load.Elapsed
import FanoutIndex.Load.Plan
import FanoutIndex.Load.Report
import FanoutIndex.Main
import FanoutIndex.Node.Basic
import FanoutIndex.Node.Text
import FanoutIndex.Proofs.Concurrent.Advance
import FanoutIndex.Proofs.Concurrent.Agreeing
import FanoutIndex.Proofs.Concurrent.Change
import FanoutIndex.Proofs.Concurrent.Contents
import FanoutIndex.Proofs.Concurrent.Counts
import FanoutIndex.Proofs.Concurrent.History
import FanoutIndex.Proofs.Concurrent.Linearization
import FanoutIndex.Proofs.Concurrent.Locked
import FanoutIndex.Proofs.Concurrent.Owners
import FanoutIndex.Proofs.Concurrent.Requests
import FanoutIndex.Proofs.Concurrent.Runs
import FanoutIndex.Proofs.Concurrent.Safety
import FanoutIndex.Proofs.Concurrent.Search
import FanoutIndex.Proofs.Concurrent.Stages
import FanoutIndex.Proofs.Concurrent.Writes
import FanoutIndex.Proofs.Key.Codec
import FanoutIndex.Proofs.Key.Lexicographic
import FanoutIndex.Proofs.Key.Linear
import FanoutIndex.Proofs.Key.Padding
import FanoutIndex.Proofs.Key.Printed
import FanoutIndex.Proofs.Layout.Bounds
import FanoutIndex.Proofs.Layout.Contents
import FanoutIndex.Proofs.Layout.Depth
import FanoutIndex.Proofs.Layout.Face
import FanoutIndex.Proofs.Layout.Levels
import FanoutIndex.Proofs.Layout.Path
import FanoutIndex.Proofs.Layout.Sound
import FanoutIndex.Proofs.Load.Numbers
import FanoutIndex.Proofs.Load.Verdict
import FanoutIndex.Proofs.Map.Counters
import FanoutIndex.Proofs.Map.Environment
import FanoutIndex.Proofs.Map.Extent
import FanoutIndex.Proofs.Map.Growth
import FanoutIndex.Proofs.Map.Refinement
import FanoutIndex.Proofs.Map.Sequences
import FanoutIndex.Proofs.Map.Sorted
import FanoutIndex.Proofs.Map.Versions
import FanoutIndex.Proofs.Protocol.Attempts
import FanoutIndex.Proofs.Protocol.Nesting
import FanoutIndex.Proofs.Protocol.Rescans
import FanoutIndex.Proofs.Protocol.Retries
import FanoutIndex.Proofs.Protocol.Spending
import FanoutIndex.Proofs.Protocol.Writers
import FanoutIndex.Proofs.Quiet.Agreement
import FanoutIndex.Proofs.Quiet.Commuting
import FanoutIndex.Proofs.Quiet.Readers
import FanoutIndex.Proofs.Quiet.Searches
import FanoutIndex.Proofs.Quiet.Sessions
import FanoutIndex.Proofs.Quiet.Shelter
import FanoutIndex.Proofs.Quiet.Waits
import FanoutIndex.Proofs.Quiet.Writes
import FanoutIndex.Proofs.Scripted.Built
import FanoutIndex.Proofs.Scripted.Calls
import FanoutIndex.Proofs.Scripted.Evolution
import FanoutIndex.Proofs.Scripted.Lookups
import FanoutIndex.Proofs.Scripted.Puts
import FanoutIndex.Proofs.Scripted.Quiet
import FanoutIndex.Proofs.Scripted.Replay
import FanoutIndex.Proofs.Scripted.Scans
import FanoutIndex.Proofs.Scripted.Searches
import FanoutIndex.Proofs.Scripted.Sections
import FanoutIndex.Proofs.Seqlock.Exclusion
import FanoutIndex.Proofs.Seqlock.Snapshot
import FanoutIndex.Proofs.Text.Numerals
import FanoutIndex.Proofs.Tree.Change
import FanoutIndex.Proofs.Tree.Checked
import FanoutIndex.Proofs.Tree.Commute
import FanoutIndex.Proofs.Tree.Effect
import FanoutIndex.Proofs.Tree.Faults
import FanoutIndex.Proofs.Tree.FirstViolation
import FanoutIndex.Proofs.Tree.Inorder
import FanoutIndex.Proofs.Tree.Insert
import FanoutIndex.Proofs.Tree.Places
import FanoutIndex.Proofs.Tree.Rendering
import FanoutIndex.Proofs.Tree.Retrieval
import FanoutIndex.Proofs.Tree.Shape
import FanoutIndex.Proofs.Tree.Trail
import FanoutIndex.Proofs.Tree.Visits
import FanoutIndex.Proofs.Tree.Writes
import FanoutIndex.Proofs.Version.Accounts
import FanoutIndex.Proofs.Version.Contention
import FanoutIndex.Proofs.Version.Guarded
import FanoutIndex.Proofs.Version.Ledger
import FanoutIndex.Proofs.Version.Token
import FanoutIndex.Proofs.Version.Word
import FanoutIndex.Seqlock.Basic
import FanoutIndex.Session.Answer
import FanoutIndex.Session.Command
import FanoutIndex.Session.Perform
import FanoutIndex.Text.Combining
import FanoutIndex.Text.Described
import FanoutIndex.Text.Numeral
import FanoutIndex.Text.Printable
import FanoutIndex.Text.Quoted
import FanoutIndex.Tree.Basic
import FanoutIndex.Tree.Check
import FanoutIndex.Tree.Dump
import FanoutIndex.Tree.Lemmas
import FanoutIndex.Tree.Stats
import FanoutIndex.Tree.Walk
import FanoutIndex.Version.Basic
import FanoutIndex.Version.Guards
