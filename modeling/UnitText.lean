import UnitText.UnitExpr
import UnitText.Decimal
import UnitText.Value
import UnitText.Context
import UnitText.Builtin
import UnitText.Resolver
import UnitText.Writing.Item
import UnitText.Flag
import UnitText.Toml.Scan
import UnitText.Toml.Table
import UnitText.Toml.Document
import UnitText.Ambient
import UnitText.Session
import UnitText.UnitExpr.Normal
import UnitText.Proofs.BoundedRatio
import UnitText.Proofs.Degree
import UnitText.Proofs.Scan
import UnitText.Proofs.Text
import UnitText.Proofs.Reading
import UnitText.Proofs.SessionWorld
import UnitText.Proofs.Names
import UnitText.Proofs.ReadBack
import UnitText.Proofs.Layout
import UnitText.Proofs.Canon
import UnitText.Proofs.Unambiguous
import UnitText.Proofs.NormalForm
import UnitText.Proofs.FoundNames
import UnitText.Proofs.Journal
import UnitText.Proofs.SessionJournal
import UnitText.Proofs.Overflow
import UnitText.Proofs.Cancellation
import UnitText.Proofs.Powers
import UnitText.Proofs.BirthOrder
import UnitText.Proofs.Separators
import UnitText.Proofs.Reciprocals
import UnitText.Proofs.Providers
import UnitText.Proofs.EntryPoints
import UnitText.Proofs.ContextHistory
import UnitText.Proofs.Representable
import UnitText.Proofs.BindHistory
import UnitText.Proofs.FreshBinding
import UnitText.Proofs.LiteralMode
import UnitText.Proofs.EffectiveOptions
import UnitText.Proofs.BinaryFractions
