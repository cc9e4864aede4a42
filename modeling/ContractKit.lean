import ContractKit.Attribute.Basic
import ContractKit.Attribute.Marker
import ContractKit.Attribute.Parser
import ContractKit.Attribute.Token
import ContractKit.Bytes
import ContractKit.Bytes.LittleEndian
import ContractKit.Classes
import ContractKit.Codec.Basic
import ContractKit.Codec.Check
import ContractKit.Codec.Decode
import ContractKit.Codec.Encode
import ContractKit.Codec.OfType
import ContractKit.CommandLine.Arguments
import ContractKit.CommandLine.Exports
import ContractKit.CommandLine.Logging
import ContractKit.CommandLine.Run
import ContractKit.Contract.Action
import ContractKit.Contract.Context
import ContractKit.Contract.Export
import ContractKit.Contract.Host
import ContractKit.Contract.Spec
import ContractKit.Contract.Store
import ContractKit.Diagnostic
import ContractKit.Document.Basic
import ContractKit.Document.Merge
import ContractKit.Document.Parser
import ContractKit.Document.Printed
import ContractKit.Fault
import ContractKit.Fault.Gather
import ContractKit.Main
import ContractKit.Module.Basic
import ContractKit.Module.Body
import ContractKit.Module.Declare
import ContractKit.Module.Decorate
import ContractKit.Module.EntryPoint
import ContractKit.Module.Eval
import ContractKit.Module.Instance
import ContractKit.Module.TypeShape
import ContractKit.Proofs.Attribute.Parse
import ContractKit.Proofs.Attribute.Place
import ContractKit.Proofs.Attribute.Rendered
import ContractKit.Proofs.Codec.Admitted
import ContractKit.Proofs.Codec.Alike
import ContractKit.Proofs.Codec.Encodable
import ContractKit.Proofs.Codec.Exact
import ContractKit.Proofs.Codec.Faults
import ContractKit.Proofs.Codec.Held
import ContractKit.Proofs.Codec.Integers
import ContractKit.Proofs.Codec.Keys
import ContractKit.Proofs.Codec.Layout
import ContractKit.Proofs.Codec.Leaves
import ContractKit.Proofs.Codec.Normal
import ContractKit.Proofs.Codec.OfType
import ContractKit.Proofs.Codec.Parts
import ContractKit.Proofs.Codec.Reads
import ContractKit.Proofs.Codec.Reencode
import ContractKit.Proofs.Codec.Refused
import ContractKit.Proofs.Codec.RoundTrip
import ContractKit.Proofs.Codec.Seen
import ContractKit.Proofs.Codec.Variants
import ContractKit.Proofs.Codec.Walk
import ContractKit.Proofs.Contract.Cursor
import ContractKit.Proofs.Contract.Export
import ContractKit.Proofs.Contract.ExportName
import ContractKit.Proofs.Contract.Host
import ContractKit.Proofs.Contract.Reading
import ContractKit.Proofs.Contract.Spec
import ContractKit.Proofs.Contract.Splice
import ContractKit.Proofs.Contract.Store
import ContractKit.Proofs.Document.KeyPath
import ContractKit.Proofs.Document.Layers
import ContractKit.Proofs.Fault.Gather
import ContractKit.Proofs.Fault.Problems
import ContractKit.Proofs.Module.Body
import ContractKit.Proofs.Module.Calls
import ContractKit.Proofs.Module.Counts
import ContractKit.Proofs.Module.Declared
import ContractKit.Proofs.Module.Decorated
import ContractKit.Proofs.Module.Described
import ContractKit.Proofs.Module.Directions
import ContractKit.Proofs.Module.Exported
import ContractKit.Proofs.Module.Format
import ContractKit.Proofs.Module.Input
import ContractKit.Proofs.Module.Keys
import ContractKit.Proofs.Module.Logged
import ContractKit.Proofs.Module.Named
import ContractKit.Proofs.Module.Ordered
import ContractKit.Proofs.Module.Outline
import ContractKit.Proofs.Module.Output
import ContractKit.Proofs.Module.Rejected
import ContractKit.Proofs.Module.Runs
import ContractKit.Proofs.Module.SchemaSwitch
import ContractKit.Proofs.Module.Settled
import ContractKit.Proofs.Module.State
import ContractKit.Proofs.Module.Table
import ContractKit.Proofs.Module.Things
import ContractKit.Proofs.Module.WithoutSchemas
import ContractKit.Proofs.Schema.Binary
import ContractKit.Proofs.Schema.Walk
import ContractKit.Proofs.Settings.Chain
import ContractKit.Proofs.Settings.FileTree
import ContractKit.Proofs.Settings.Layers
import ContractKit.Proofs.Settings.Path
import ContractKit.Proofs.Shape.Derived
import ContractKit.Proofs.Shape.Fields
import ContractKit.Proofs.Shape.OfClass
import ContractKit.Proofs.Shape.Plan
import ContractKit.Proofs.Shape.Prefixed
import ContractKit.Proofs.Shape.Repeated
import ContractKit.Proofs.Ty.Layout
import ContractKit.Proofs.Value.Distinct
import ContractKit.Proofs.Value.KeyOrder
import ContractKit.Proofs.Value.Same
import ContractKit.Proofs.Value.Sorted
import ContractKit.Proofs.Wire.Extent
import ContractKit.Proofs.Wire.Failing
import ContractKit.Proofs.Wire.Keyed
import ContractKit.Proofs.Wire.LittleEndian
import ContractKit.Proofs.Wire.Programs
import ContractKit.Schema.Basic
import ContractKit.Schema.Binary
import ContractKit.Schema.OfType
import ContractKit.Settings
import ContractKit.Settings.FileTree
import ContractKit.Settings.Load
import ContractKit.Settings.Path
import ContractKit.Shape.Basic
import ContractKit.Shape.Derived
import ContractKit.Shape.OfClass
import ContractKit.Shape.Plan
import ContractKit.Source.OfDocument
import ContractKit.Source.Syntax
import ContractKit.Text.Blank
import ContractKit.Text.Literal
import ContractKit.Text.Printable
import ContractKit.Text.Quoted
import ContractKit.Ty.Basic
import ContractKit.Ty.Printed
import ContractKit.Ty.Resolve
import ContractKit.Value.Arithmetic
import ContractKit.Value.Basic
import ContractKit.Value.Equality
import ContractKit.Value.Order
import ContractKit.Value.Result
import ContractKit.Value.Shown
import ContractKit.Wire.Emit
import ContractKit.Wire.Error
import ContractKit.Wire.Format
import ContractKit.Wire.Keyed
import ContractKit.Wire.PrefixWidth
import ContractKit.Wire.Read
import ContractKit.Wire.Stream
