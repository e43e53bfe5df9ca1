import ComponentTree.Script.Semantics
import ComponentTree.Engine.OptionsReader
import ComponentTree.Number.DecimalReader
import ComponentTree.Proofs.Expansion.Fixpoint
import ComponentTree.Proofs.Expansion.Order
import ComponentTree.Proofs.Expansion.BreadthFirst
import ComponentTree.Proofs.Expansion.Guard
import ComponentTree.Proofs.Expansion.Recycling
import ComponentTree.Proofs.Rule.Dispatch
import ComponentTree.Proofs.Markup.Identity
import ComponentTree.Proofs.Expansion.Again
import ComponentTree.Proofs.Markup.Nesting
import ComponentTree.Proofs.Expansion.Blind
import ComponentTree.Proofs.Expansion.Limits
import ComponentTree.Proofs.Expansion.FlatContent
import ComponentTree.Proofs.Expansion.Owned
import ComponentTree.Proofs.Tree.Literal
import ComponentTree.Proofs.Expansion.Ahead
import ComponentTree.Proofs.Expansion.Positions
import ComponentTree.Proofs.Expansion.Transparency
import ComponentTree.Proofs.Expansion.Chain
import ComponentTree.Proofs.Rule.RoundTrip
import ComponentTree.Proofs.Markup.Flat
import ComponentTree.Proofs.Expansion.PlainMarkup
import ComponentTree.Proofs.Expansion.LiteralData
import ComponentTree.Proofs.Expansion.Revisits
import ComponentTree.Proofs.Rule.FirstReading
import ComponentTree.Proofs.Engine.Identifiers
import ComponentTree.Proofs.Expansion.Alarms
import ComponentTree.Proofs.Expansion.ReadBack
import ComponentTree.Proofs.Expansion.Locality
import ComponentTree.Proofs.Markup.Entities
import ComponentTree.Proofs.Markup.Payload
import ComponentTree.Proofs.Tree.Copies
import ComponentTree.Proofs.Library.LastWrite
import ComponentTree.Proofs.Engine.Index
import ComponentTree.Proofs.Tree.Flatten
