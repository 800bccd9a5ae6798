import Lox.CommandLine
import Lox.Main
import Lox.Proofs.Ends
import Lox.Proofs.Identity
import Lox.Proofs.Equality
import Lox.Proofs.Tidy
import Lox.Proofs.Recast
import Lox.Proofs.Scan.Lexemes
import Lox.Proofs.Scan.Numeral
import Lox.Proofs.Scan.Munch
import Lox.Proofs.Scan.Partition
import Lox.Proofs.Scan.Characters
import Lox.Proofs.Scan.Joining
import Lox.Proofs.Scan.Layout
import Lox.Proofs.Scan.Fuel
import Lox.Proofs.Number.Bits
import Lox.Proofs.Number.Rounding
import Lox.Proofs.Number.Nearest
import Lox.Proofs.Number.Decimal
import Lox.Proofs.Number.RoundTrip
import Lox.Proofs.Grammar
import Lox.Proofs.Grammar.Nearest
import Lox.Proofs.Grammar.Recast
import Lox.Proofs.Grammar.Relaxed
import Lox.Proofs.Parse.Reading
import Lox.Proofs.Parse.Soundness
import Lox.Proofs.Parse.Follow
import Lox.Proofs.Parse.Taking
import Lox.Proofs.Parse.Expressions
import Lox.Proofs.Parse.Statements
import Lox.Proofs.Parse.Completeness
import Lox.Proofs.Parse.Programs
import Lox.Proofs.Parse.Residual
import Lox.Proofs.Parse.Prefixes
import Lox.Proofs.Parse.FirstBlame
import Lox.Proofs.Parse.Cursor
import Lox.Proofs.Parse.Following
import Lox.Proofs.Parse.Advancing
import Lox.Proofs.Parse.Origins
import Lox.Proofs.Parse.Making
import Lox.Proofs.Resolve.Scopes
import Lox.Proofs.Parse.Alike
import Lox.Proofs.Parse.Abreast
import Lox.Proofs.Parse.Renumbering
import Lox.Proofs.Template
import Lox.Proofs.Parse.Junk
import Lox.Proofs.Parse.Slots
import Lox.Proofs.Parse.Seats
import Lox.Proofs.Parse.Filled
import Lox.Proofs.Parse.Locality
import Lox.Proofs.Resolve.Walk
import Lox.Proofs.Resolve.Recast
import Lox.Proofs.Resolve.Places
import Lox.Proofs.Resolve.Opened
import Lox.Proofs.Resolve.Violations
import Lox.Proofs.Resolve.Numbering
import Lox.Proofs.Resolve.Addresses
import Lox.Proofs.Resolve.Origins
import Lox.Proofs.Resolve.Sequence
import Lox.Proofs.Store
import Lox.Proofs.Store.History
import Lox.Proofs.Execute.Reach
import Lox.Proofs.Execute.Contents
import Lox.Proofs.Execute.Growth
import Lox.Proofs.Execute.Steps
import Lox.Proofs.Execute.Fuel
import Lox.Proofs.Execute.Behaviour
import Lox.Proofs.Execute.Jumps
import Lox.Proofs.Execute.Landing
import Lox.Proofs.Execute.Parts
import Lox.Proofs.Execute.Additions
import Lox.Proofs.Execute.Composed
import Lox.Proofs.Execute.Output
import Lox.Proofs.Execute.Naming
import Lox.Proofs.Execute.Heritage
import Lox.Proofs.Execute.Filling
import Lox.Proofs.Grammar.Blame
import Lox.Proofs.Execute.Pending
import Lox.Proofs.Execute.Safe
import Lox.Proofs.Execute.Secure
import Lox.Proofs.Execute.Safety
import Lox.Proofs.Reference
import Lox.Proofs.Reference.Relation
import Lox.Proofs.Reference.Cells
import Lox.Proofs.Reference.Agreement
import Lox.Proofs.Reference.Simulation
import Lox.Proofs.Reference.Sessions
import Lox.Proofs.Reference.Recast
import Lox.Proofs.Reference.Kinship
import Lox.Proofs.Reference.Joining
import Lox.Proofs.Counting.Rule
import Lox.Proofs.Counting.Concurring
import Lox.Proofs.Counting.Counterparts
import Lox.Proofs.Counting.Loops
import Lox.Proofs.Text.Lines
import Lox.Proofs.Text.Colors
import Lox.Proofs.Reporting
import Lox.Proofs.Coloring
import Lox.Proofs.Session.Stages
import Lox.Proofs.Session.Statuses
import Lox.Proofs.Session.Quotes
import Lox.Proofs.Session.Entries
import Lox.Proofs.Session.Skipping
import Lox.Proofs.Session.Joining
import Lox.Proofs.Session.Origins
import Lox.Proofs.Session.Worlds
import Lox.Proofs.Session.Observing
import Lox.Proofs.Session.Conversing
import Lox.Proofs.Render.Outline
import Lox.Proofs.Render.Spelling
import Lox.Proofs.Render.Trees
import Lox.Proofs.Render.Unambiguous
import Lox.Proofs.Renaming.Renamed
import Lox.Proofs.Renaming.Resolving
import Lox.Proofs.Renaming.Running
import Lox.Proofs.Renaming.Sessions
