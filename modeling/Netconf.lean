import Netconf.Binary64.Basic
import Netconf.Binary64.Shortest
import Netconf.Binary64.Text
import Netconf.Binding
import Netconf.Capability.Basic
import Netconf.Capability.Reading
import Netconf.Config
import Netconf.Edit.Apply
import Netconf.Edit.Between
import Netconf.Edit.Excerpt
import Netconf.Error
import Netconf.Frame
import Netconf.Json
import Netconf.Path.Change
import Netconf.Path.Create
import Netconf.Path.Operand
import Netconf.Path.Query
import Netconf.Path.Reading
import Netconf.Path.Syntax
import Netconf.Path.Token.Basic
import Netconf.Path.Token.Reading
import Netconf.Proofs.Binding.Merging
import Netconf.Proofs.Capability.Listing
import Netconf.Proofs.Edit.Amending
import Netconf.Proofs.Edit.Bundles
import Netconf.Proofs.Edit.Classwise
import Netconf.Proofs.Edit.Copies
import Netconf.Proofs.Edit.Documents
import Netconf.Proofs.Edit.Excerpts
import Netconf.Proofs.Edit.Explicit
import Netconf.Proofs.Edit.Footprints
import Netconf.Proofs.Edit.Gathering
import Netconf.Proofs.Edit.LeafLists
import Netconf.Proofs.Edit.Leaves
import Netconf.Proofs.Edit.Materials
import Netconf.Proofs.Edit.Merged
import Netconf.Proofs.Edit.Merging
import Netconf.Proofs.Edit.Outlines
import Netconf.Proofs.Edit.Places
import Netconf.Proofs.Edit.Plans
import Netconf.Proofs.Edit.Repeats
import Netconf.Proofs.Edit.Schemaless
import Netconf.Proofs.Edit.Sides
import Netconf.Proofs.Edit.Skeletons
import Netconf.Proofs.Edit.Spared
import Netconf.Proofs.Edit.Steps
import Netconf.Proofs.Edit.Traces
import Netconf.Proofs.Edit.Turns
import Netconf.Proofs.Frame.Messages
import Netconf.Proofs.Frame.Segments
import Netconf.Proofs.Path.Assignments
import Netconf.Proofs.Path.Barriers
import Netconf.Proofs.Path.Bytewise
import Netconf.Proofs.Path.Chains
import Netconf.Proofs.Path.Continuations
import Netconf.Proofs.Path.Created
import Netconf.Proofs.Path.Descents
import Netconf.Proofs.Path.DocumentOrder
import Netconf.Proofs.Path.Drafts
import Netconf.Proofs.Path.Failures
import Netconf.Proofs.Path.Fulfilment
import Netconf.Proofs.Path.Grammar
import Netconf.Proofs.Path.Labelled
import Netconf.Proofs.Path.Lexing
import Netconf.Proofs.Path.Positional
import Netconf.Proofs.Path.Printable
import Netconf.Proofs.Path.Printed
import Netconf.Proofs.Path.Readings
import Netconf.Proofs.Path.Routes
import Netconf.Proofs.Path.Scanning
import Netconf.Proofs.Path.Sites
import Netconf.Proofs.Path.Spelling
import Netconf.Proofs.Path.Words
import Netconf.Proofs.Session.Actions
import Netconf.Proofs.Session.Advertising
import Netconf.Proofs.Session.Answers
import Netconf.Proofs.Session.Bodies
import Netconf.Proofs.Session.Conveyance
import Netconf.Proofs.Session.Correlation
import Netconf.Proofs.Session.Courses
import Netconf.Proofs.Session.Documents
import Netconf.Proofs.Session.Framing
import Netconf.Proofs.Session.Gates
import Netconf.Proofs.Session.Holdings
import Netconf.Proofs.Session.Lifecycle
import Netconf.Proofs.Session.Messages
import Netconf.Proofs.Session.Refusals
import Netconf.Proofs.Session.Runs
import Netconf.Proofs.Text.Base64
import Netconf.Proofs.Text.Bytes
import Netconf.Proofs.Text.Cuts
import Netconf.Proofs.Text.Decimal
import Netconf.Proofs.Text.Positions
import Netconf.Proofs.Text.Tame
import Netconf.Proofs.Transport.Subscribers
import Netconf.Proofs.Tree.Agreement
import Netconf.Proofs.Tree.Bindings
import Netconf.Proofs.Tree.Branches
import Netconf.Proofs.Tree.Classes
import Netconf.Proofs.Tree.Comparisons
import Netconf.Proofs.Tree.Copies
import Netconf.Proofs.Tree.Differences
import Netconf.Proofs.Tree.Duplicates
import Netconf.Proofs.Tree.Equivalence
import Netconf.Proofs.Tree.Forest
import Netconf.Proofs.Tree.Frames
import Netconf.Proofs.Tree.Growth
import Netconf.Proofs.Tree.Identity
import Netconf.Proofs.Tree.Insertion
import Netconf.Proofs.Tree.Invariants
import Netconf.Proofs.Tree.Joined
import Netconf.Proofs.Tree.Labels
import Netconf.Proofs.Tree.Lineages
import Netconf.Proofs.Tree.Links
import Netconf.Proofs.Tree.Marks
import Netconf.Proofs.Tree.Matchings
import Netconf.Proofs.Tree.Operations
import Netconf.Proofs.Tree.Orderly
import Netconf.Proofs.Tree.Origins
import Netconf.Proofs.Tree.Outcome
import Netconf.Proofs.Tree.Pairings
import Netconf.Proofs.Tree.Reachable
import Netconf.Proofs.Tree.Regular
import Netconf.Proofs.Tree.Siblings
import Netconf.Proofs.Tree.Slots
import Netconf.Proofs.Tree.Sprouts
import Netconf.Proofs.Tree.Symmetry
import Netconf.Proofs.Value
import Netconf.Proofs.Xml.Building
import Netconf.Proofs.Xml.Choices
import Netconf.Proofs.Xml.Conveyed
import Netconf.Proofs.Xml.Elements
import Netconf.Proofs.Xml.Guarded
import Netconf.Proofs.Xml.Inventory
import Netconf.Proofs.Xml.Names
import Netconf.Proofs.Xml.Revisions
import Netconf.Proofs.Xml.RoundTrip
import Netconf.Proofs.Xml.Rounds
import Netconf.Proofs.Xml.Scanning
import Netconf.Proofs.Xml.Scopes
import Netconf.Proofs.Xml.Standings
import Netconf.Proofs.Xml.Steps
import Netconf.Proofs.Xml.TagText
import Netconf.Proofs.Xml.Tags
import Netconf.Proofs.Xml.Transcripts
import Netconf.RpcError.Basic
import Netconf.RpcError.Reading
import Netconf.Schema
import Netconf.Session.Command
import Netconf.Session.Exchange
import Netconf.Session.Request
import Netconf.Session.Stage
import Netconf.Text.Base64
import Netconf.Text.Blank
import Netconf.Text.Cut
import Netconf.Text.Extending
import Netconf.Text.Ignorable
import Netconf.Text.Integer
import Netconf.Text.Printable
import Netconf.Text.Ranges
import Netconf.Text.Shown
import Netconf.Transport
import Netconf.Tree.Basic
import Netconf.Tree.Build
import Netconf.Tree.Copy
import Netconf.Tree.Difference
import Netconf.Tree.Element
import Netconf.Tree.Likeness
import Netconf.Tree.Lineage
import Netconf.Tree.Mark
import Netconf.Tree.Structure
import Netconf.Value
import Netconf.Xml.Markup
import Netconf.Xml.Reading
import Netconf.Xml.Reference
import Netconf.Xml.Scope
import Netconf.Xml.Writing
