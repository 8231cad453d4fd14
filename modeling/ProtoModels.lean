import ProtoModels.ClassPath
import ProtoModels.ClassTree
import ProtoModels.Compile
import ProtoModels.Decimal.Binary64
import ProtoModels.Decimal.Nearest
import ProtoModels.Decimal.Shortest
import ProtoModels.Descriptor.Basic
import ProtoModels.Descriptor.Encoding
import ProtoModels.Descriptor.Pool.Basic
import ProtoModels.Descriptor.Pool.DefaultValue
import ProtoModels.Descriptor.Pool.Interpretation
import ProtoModels.Descriptor.Pool.NamedOption
import ProtoModels.Descriptor.Pool.Options
import ProtoModels.Descriptor.Pool.Resolve
import ProtoModels.Descriptor.Pool.Scalar
import ProtoModels.Descriptor.Pool.Slot
import ProtoModels.Descriptor.Pool.Standard
import ProtoModels.Descriptor.Pool.Validity
import ProtoModels.Descriptor.Pool.Value
import ProtoModels.Descriptor.WrittenOption
import ProtoModels.Failure
import ProtoModels.FieldKind
import ProtoModels.FieldSpec
import ProtoModels.FieldType
import ProtoModels.Literal
import ProtoModels.Main
import ProtoModels.ModuleText
import ProtoModels.Names
import ProtoModels.OutputFile
import ProtoModels.PackageModule
import ProtoModels.Plugin
import ProtoModels.Response
import ProtoModels.Rules.Annotations
import ProtoModels.Rules.Basic
import ProtoModels.Rules.Encoding
import ProtoModels.Rules.Index
import ProtoModels.Schema.Basic
import ProtoModels.Schema.Build
import ProtoModels.Schema.Walk
import ProtoModels.Settings
import ProtoModels.Source.Line
import ProtoModels.StandardType
import ProtoModels.Text.Blank
import ProtoModels.Text.Lines
import ProtoModels.Wire.Record
import ProtoModels.Wire.Shape
import ProtoModels.Wire.Varint
import ProtoModels.Proofs.ClassPaths
import ProtoModels.Proofs.ClassTree.Descendants
import ProtoModels.Proofs.ClassTree.Events
import ProtoModels.Proofs.ClassTree.Lookup
import ProtoModels.Proofs.ClassTree.Outline
import ProtoModels.Proofs.Failures
import ProtoModels.Proofs.FieldTypes
import ProtoModels.Proofs.ModuleText.Blocks
import ProtoModels.Proofs.ModuleText.ClassLines
import ProtoModels.Proofs.ModuleText.OneLine
import ProtoModels.Proofs.ModuleText.PlainLines
import ProtoModels.Proofs.ModuleText.ReadBack
import ProtoModels.Proofs.PackageTree
import ProtoModels.Proofs.References
import ProtoModels.Proofs.Schema.Declarations
import ProtoModels.Proofs.Schema.Placement
import ProtoModels.Proofs.Schema.WalkReach
import ProtoModels.Proofs.Source.Reading
import ProtoModels.Proofs.Traversals
import ProtoModels.Proofs.Source.Layout
import ProtoModels.Proofs.ModuleText.Suites
import ProtoModels.Proofs.Compile.Basic
import ProtoModels.Proofs.Compile.FileOrder
import ProtoModels.Proofs.Compile.SinglePackages
import ProtoModels.Proofs.ClassTree.Trie
import ProtoModels.Proofs.ClassTree.TopLevel
import ProtoModels.Proofs.ClassTree.Emission
import ProtoModels.Proofs.Nesting
import ProtoModels.Proofs.Graph.Basic
import ProtoModels.Proofs.Graph.Layout
import ProtoModels.Proofs.Graph.Listing
import ProtoModels.Proofs.Graph.Placement
import ProtoModels.Proofs.Graph.WellFormed
import ProtoModels.Proofs.Schema.WalkBound
import ProtoModels.Proofs.Compile.OutputPaths
import ProtoModels.Proofs.ClassTree.Map
import ProtoModels.Proofs.Oneofs
import ProtoModels.Proofs.Schema.WithRules
import ProtoModels.Proofs.Compile.RuleLocality
import ProtoModels.Proofs.Descriptor.EncodedFiles
import ProtoModels.Proofs.Descriptor.Pool.Interpretation
import ProtoModels.Proofs.Descriptor.Pool.Names
import ProtoModels.Proofs.Schema.FromDescriptors
import ProtoModels.Proofs.Rules.Annotations
import ProtoModels.Proofs.Schema.VisitOrder
import ProtoModels.Proofs.Descriptor.RequestDecodings
import ProtoModels.Proofs.Wire.Readers
import ProtoModels.Proofs.Wire.RoundTrip
import ProtoModels.Proofs.Wire.Shortest
import ProtoModels.Proofs.Rules.Encoding
import ProtoModels.Proofs.Rules.RoundTrip
import ProtoModels.Proofs.Response
import ProtoModels.Proofs.PluginRun
import ProtoModels.Proofs.Compile.SameTargets
import ProtoModels.Proofs.Compile.UnreachableFile
import ProtoModels.Proofs.Source.Comments
import ProtoModels.Proofs.Literals.Texts
import ProtoModels.Proofs.Descriptor.Declarations
import ProtoModels.Proofs.Schema.Registration
import ProtoModels.Proofs.Schema.Comments
import ProtoModels.Proofs.Decimal.Rounding
import ProtoModels.Proofs.Decimal.Shortest
import ProtoModels.Proofs.Literals.Values
import ProtoModels.Proofs.FieldSpecs
import ProtoModels.Proofs.MapsAndLists
import ProtoModels.Proofs.FlatNames
import ProtoModels.Proofs.Parameters
import ProtoModels.Proofs.Source.QuotedTexts
import ProtoModels.Proofs.Literals.Quotes
import ProtoModels.Proofs.ModuleText.Hooks
import ProtoModels.Proofs.Wire.ByteOrder
import ProtoModels.Proofs.Scopes
import ProtoModels.Proofs.Schema.PathNames
import ProtoModels.Proofs.ModuleText.Bindings
import ProtoModels.Proofs.ModuleText.SpokenNames
