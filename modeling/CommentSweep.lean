import CommentSweep.Text
import CommentSweep.Text.Lower
import CommentSweep.Text.Quoted
import CommentSweep.Text.Utf8
import CommentSweep.Decimal
import CommentSweep.Json
import CommentSweep.Path
import CommentSweep.Settings
import CommentSweep.Strategy
import CommentSweep.Script
import CommentSweep.Registry
import CommentSweep.Ignore
import CommentSweep.Disk
import CommentSweep.Log
import CommentSweep.Log.Template
import CommentSweep.Report
import CommentSweep.Job
import CommentSweep.Processor
import CommentSweep.Walker
import CommentSweep.Args
import CommentSweep.Run
import CommentSweep.Main
import CommentSweep.Proofs.Text.Gap
import CommentSweep.Proofs.Text.Respaced
import CommentSweep.Proofs.Text.Layout
import CommentSweep.Proofs.Text.Finished
import CommentSweep.Proofs.Text.Endings
import CommentSweep.Proofs.Text.Lower
import CommentSweep.Proofs.Text.Names
import CommentSweep.Proofs.Text.Units
import CommentSweep.Proofs.Text.Utf8
import CommentSweep.Proofs.Text.VisibleLines
import CommentSweep.Proofs.Comment.Erase
import CommentSweep.Proofs.Script.Trace
import CommentSweep.Proofs.Script.Rescan
import CommentSweep.Proofs.Script.Respaced
import CommentSweep.Proofs.Script.Boundary
import CommentSweep.Proofs.Script.Token
import CommentSweep.Proofs.Script.Lexing
import CommentSweep.Proofs.Script.Lines
import CommentSweep.Proofs.Registry.Answer
import CommentSweep.Proofs.Script.Literals
import CommentSweep.Proofs.Script.Strides
import CommentSweep.Proofs.Strategy.Settled
import CommentSweep.Proofs.Strategy.Cut
import CommentSweep.Proofs.Strategy.Endings
import CommentSweep.Proofs.Strategy.Passes
import CommentSweep.Proofs.Strategy.Remains
import CommentSweep.Proofs.Extension.Selection
import CommentSweep.Proofs.Registry.History
import CommentSweep.Proofs.Registry.Mend
import CommentSweep.Proofs.Registry.Transformed
import CommentSweep.Proofs.Ignore.Matching
import CommentSweep.Proofs.Ignore.Marks
import CommentSweep.Proofs.Ignore.Weights
import CommentSweep.Proofs.Ignore.Components
import CommentSweep.Proofs.Disk.Skeleton
import CommentSweep.Proofs.Disk.Listing
import CommentSweep.Proofs.Job.Ensures
import CommentSweep.Proofs.Job.Access
import CommentSweep.Proofs.Job.Relates
import CommentSweep.Proofs.Processor.Verdict
import CommentSweep.Proofs.Processor.Effect
import CommentSweep.Proofs.Processor.Again
import CommentSweep.Proofs.Processor.BrokenOff
import CommentSweep.Proofs.Processor.Changed
import CommentSweep.Proofs.Processor.DryRun
import CommentSweep.Proofs.Processor.Endings
import CommentSweep.Proofs.Processor.Indentation
import CommentSweep.Proofs.Processor.Orders
import CommentSweep.Proofs.Walker.Visits
import CommentSweep.Proofs.Walker.Alongside
import CommentSweep.Proofs.Walker.OfRoot
import CommentSweep.Proofs.Walker.Yield
import CommentSweep.Proofs.Walker.Failures
import CommentSweep.Proofs.Walker.Itinerary
import CommentSweep.Proofs.Walker.Narrower
import CommentSweep.Proofs.Run.Sweep
import CommentSweep.Proofs.Run.DryRun
import CommentSweep.Proofs.Run.Confined
import CommentSweep.Proofs.Run.Outburst
import CommentSweep.Proofs.Run.BrokenOff
import CommentSweep.Proofs.Run.Tally
