import TwinTrees.CommandError
import TwinTrees.CommandLine
import TwinTrees.Decimal
import TwinTrees.Discovery
import TwinTrees.Disk.Basic
import TwinTrees.Disk.Request
import TwinTrees.Disk.Route
import TwinTrees.Environment
import TwinTrees.Error
import TwinTrees.Event
import TwinTrees.IoError
import TwinTrees.Main
import TwinTrees.Options
import TwinTrees.Path
import TwinTrees.Random
import TwinTrees.Registry
import TwinTrees.Run.Batch
import TwinTrees.Run.Pool
import TwinTrees.Run.Progress
import TwinTrees.Script.Command
import TwinTrees.Script.Line
import TwinTrees.Script.Placeholder
import TwinTrees.Script.Word
import TwinTrees.Settings
import TwinTrees.Side
import TwinTrees.Size
import TwinTrees.Text.Blank
import TwinTrees.Text.Order
import TwinTrees.Text.Printable
import TwinTrees.Text.Quoted
import TwinTrees.Tree.Copy
import TwinTrees.Tree.Make
import TwinTrees.Tree.Mutation
import TwinTrees.Tree.Remove
import TwinTrees.Tree.Stamp
import TwinTrees.Tree.Walk
import TwinTrees.Verb.Basic
import TwinTrees.Verb.Copy
import TwinTrees.Verb.Link
import TwinTrees.Verb.Make
import TwinTrees.Verb.Mutate
import TwinTrees.Verb.Remove
import TwinTrees.Verb.Stamp
import TwinTrees.Verb.Standard
import TwinTrees.World
import TwinTrees.Yaml.Document
import TwinTrees.Yaml.Event
import TwinTrees.Yaml.Fault
import TwinTrees.Yaml.Plain
import TwinTrees.Yaml.Token
import TwinTrees.Yaml.Token.Property
import TwinTrees.Yaml.Token.Scalar
import TwinTrees.Yaml.Token.Stream
import TwinTrees.Proofs.Action
import TwinTrees.Proofs.Disk.Directory
import TwinTrees.Proofs.Disk.Extension
import TwinTrees.Proofs.Disk.Removal
import TwinTrees.Proofs.Pool.History
import TwinTrees.Proofs.Pool.Interleaving
import TwinTrees.Proofs.Run.Alone
import TwinTrees.Proofs.Run.Completion
import TwinTrees.Proofs.Run.Confinement
import TwinTrees.Proofs.Run.Independence
import TwinTrees.Proofs.Run.Agreement
import TwinTrees.Proofs.Run.Ownership
import TwinTrees.Proofs.Run.Renewal
import TwinTrees.Proofs.Run.Calls
import TwinTrees.Proofs.Script.Rendering
import TwinTrees.Proofs.Site.Sided
import TwinTrees.Proofs.Site.Staged
import TwinTrees.Proofs.Triple
import TwinTrees.Proofs.Site.Staging
import TwinTrees.Proofs.Site.Marks
import TwinTrees.Proofs.Site.Copying
import TwinTrees.Proofs.Site.Stamping
import TwinTrees.Proofs.Site.Mirrored
import TwinTrees.Proofs.Run.Staging
import TwinTrees.Proofs.Script.Concatenation
import TwinTrees.Proofs.Script.Layout
import TwinTrees.Proofs.Script.Comments
import TwinTrees.Proofs.Script.Peg
import TwinTrees.Proofs.Script.Grammar
import TwinTrees.Proofs.Script.Division
import TwinTrees.Proofs.Script.Refusal
import TwinTrees.Proofs.Script.Pattern
import TwinTrees.Proofs.Script.Substitution
import TwinTrees.Proofs.Always
import TwinTrees.Proofs.Base.Spelling
import TwinTrees.Proofs.Base.Making
import TwinTrees.Proofs.Disk.Kind
import TwinTrees.Proofs.Base.Stamping
import TwinTrees.Proofs.Base.Cloning
import TwinTrees.Proofs.Run.Cloning
import TwinTrees.Proofs.Base.Fresh
import TwinTrees.Proofs.Run.Lockstep
import TwinTrees.Proofs.Run.Serial
import TwinTrees.Proofs.Registry.History
import TwinTrees.Proofs.Verb.Places
import TwinTrees.Proofs.Verb.Reach
import TwinTrees.Proofs.Disk.Pruning
import TwinTrees.Proofs.Run.Cleanup
import TwinTrees.Proofs.Disk.Growth
import TwinTrees.Proofs.Verb.Creation
import TwinTrees.Proofs.Outcome
import TwinTrees.Proofs.Run.Overwriting
import TwinTrees.Proofs.Tree.Stamping
import TwinTrees.Proofs.Tree.Copying
import TwinTrees.Proofs.Tree.Mutating
import TwinTrees.Proofs.Verb.Removing
import TwinTrees.Proofs.Emission
import TwinTrees.Proofs.Run.Dispatch
import TwinTrees.Proofs.Tree.Repeating
import TwinTrees.Proofs.Verb.Repeating
import TwinTrees.Proofs.Text.Basic
import TwinTrees.Proofs.Text.Order
import TwinTrees.Proofs.Size
import TwinTrees.Proofs.Path.Order
import TwinTrees.Proofs.Disk.Discovery
import TwinTrees.Proofs.Script.Position
import TwinTrees.Proofs.Disk.Bits
import TwinTrees.Proofs.Tree.Modes
import TwinTrees.Proofs.Tree.Counting
import TwinTrees.Proofs.Script.Opening
