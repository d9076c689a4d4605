import TopicCodec.Abort
import TopicCodec.Command
import TopicCodec.Command.Help
import TopicCodec.Command.Run
import TopicCodec.Decimal
import TopicCodec.Declaration
import TopicCodec.Declaration.Reader
import TopicCodec.Descriptor
import TopicCodec.Descriptor.Size
import TopicCodec.Descriptor.Validate
import TopicCodec.Error
import TopicCodec.Flags
import TopicCodec.Host
import TopicCodec.Ieee
import TopicCodec.Instruction
import TopicCodec.Json
import TopicCodec.Json.Access
import TopicCodec.Json.Reader
import TopicCodec.Main
import TopicCodec.Markup
import TopicCodec.Markup.Check
import TopicCodec.Markup.Outline
import TopicCodec.Markup.Reader
import TopicCodec.Markup.Writer
import TopicCodec.Marshal
import TopicCodec.Marshal.Buffer
import TopicCodec.Marshal.Decode
import TopicCodec.Marshal.Encode
import TopicCodec.Marshal.MinSize
import TopicCodec.Md5
import TopicCodec.Name
import TopicCodec.Path
import TopicCodec.Program
import TopicCodec.Program.Listing
import TopicCodec.Proofs.Agreement
import TopicCodec.Proofs.Appending
import TopicCodec.Proofs.Assembling
import TopicCodec.Proofs.Blame
import TopicCodec.Proofs.Canonical
import TopicCodec.Proofs.Capture
import TopicCodec.Proofs.Completeness
import TopicCodec.Proofs.Cursor
import TopicCodec.Proofs.CycleSkipping
import TopicCodec.Proofs.DataFaults
import TopicCodec.Proofs.Defaults
import TopicCodec.Proofs.Editing
import TopicCodec.Proofs.ElementBound
import TopicCodec.Proofs.EncodeFaults
import TopicCodec.Proofs.ExactExtent
import TopicCodec.Proofs.Families
import TopicCodec.Proofs.FaultOffsets
import TopicCodec.Proofs.FixedSize
import TopicCodec.Proofs.Grafting
import TopicCodec.Proofs.Grammar
import TopicCodec.Proofs.HostTypes
import TopicCodec.Proofs.HostValues
import TopicCodec.Proofs.Inlining
import TopicCodec.Proofs.JsonView
import TopicCodec.Proofs.KeyHash
import TopicCodec.Proofs.KeySize
import TopicCodec.Proofs.Lockstep
import TopicCodec.Proofs.Lowering
import TopicCodec.Proofs.MarkupNames
import TopicCodec.Proofs.MarkupRoundTrip
import TopicCodec.Proofs.MarkupText
import TopicCodec.Proofs.Merging
import TopicCodec.Proofs.MinSize
import TopicCodec.Proofs.Naming
import TopicCodec.Proofs.Nesting
import TopicCodec.Proofs.Overwriting
import TopicCodec.Proofs.Patching
import TopicCodec.Proofs.Payload
import TopicCodec.Proofs.Reads
import TopicCodec.Proofs.References
import TopicCodec.Proofs.Registering
import TopicCodec.Proofs.Relocation
import TopicCodec.Proofs.Reopening
import TopicCodec.Proofs.Resizing
import TopicCodec.Proofs.Room
import TopicCodec.Proofs.RoundTrip
import TopicCodec.Proofs.Rows
import TopicCodec.Proofs.Shaped
import TopicCodec.Proofs.Sink
import TopicCodec.Proofs.SizeAgreement
import TopicCodec.Proofs.SizeLimits
import TopicCodec.Proofs.Spelling
import TopicCodec.Proofs.Union
import TopicCodec.Proofs.Utf8
import TopicCodec.Proofs.Validity
import TopicCodec.Proofs.ValueLimit
import TopicCodec.Proofs.Walk
import TopicCodec.Proofs.Widening
import TopicCodec.Proofs.XmlText
import TopicCodec.Proofs.XmlValues
import TopicCodec.Registry
import TopicCodec.Report
import TopicCodec.Scalar
import TopicCodec.Stream
import TopicCodec.Table
import TopicCodec.Table.Json
import TopicCodec.Tagged
import TopicCodec.Text.Blank
import TopicCodec.Text.Hex
import TopicCodec.Text.Numeral
import TopicCodec.Text.Utf8
import TopicCodec.Value
import TopicCodec.Value.Default
import TopicCodec.Value.Edit
import TopicCodec.View
import TopicCodec.Wire
import TopicCodec.Wire.Cursor
import TopicCodec.Wire.Sink
import TopicCodec.Xml
import TopicCodec.Xml.Reader
import TopicCodec.Yaml.Reader
import TopicCodec.Yaml.Scalar
import TopicCodec.Yaml.Text
import TopicCodec.Yaml.Token
