import Arbor.Codec.Basic
import Arbor.Codec.Cbor
import Arbor.Codec.CborItem
import Arbor.Codec.Error
import Arbor.Codec.Json
import Arbor.Codec.Proto
import Arbor.Codec.Record
import Arbor.Codec.Toml
import Arbor.Codec.Xml
import Arbor.Codec.XmlElement
import Arbor.Codec.Yaml
import Arbor.Command.Basic
import Arbor.Command.Error
import Arbor.Command.Option
import Arbor.Command.Run
import Arbor.Command.Session
import Arbor.Diff.Align
import Arbor.Diff.Basic
import Arbor.Diff.Change
import Arbor.Diff.Outline
import Arbor.Diff.Patch
import Arbor.Diff.Script
import Arbor.Digest.Basic
import Arbor.Digest.Sha256
import Arbor.Format
import Arbor.Host.Basic
import Arbor.Host.FileName
import Arbor.Host.Memory
import Arbor.Json.Parser
import Arbor.Json.Patch
import Arbor.Json.Printer
import Arbor.Json.Value
import Arbor.Kind
import Arbor.Main
import Arbor.Number.Binary64
import Arbor.Number.Decimal
import Arbor.Number.Duration
import Arbor.Number.Power
import Arbor.Number.Reading
import Arbor.Palette
import Arbor.Proofs.Codec.Acceptance
import Arbor.Proofs.Codec.Canonical
import Arbor.Proofs.Codec.Cbor
import Arbor.Proofs.Codec.CborItem
import Arbor.Proofs.Codec.Compression
import Arbor.Proofs.Codec.DepthLimit
import Arbor.Proofs.Codec.Encodings
import Arbor.Proofs.Codec.Json
import Arbor.Proofs.Codec.JsonDepth
import Arbor.Proofs.Codec.JsonEdit
import Arbor.Proofs.Codec.Proto
import Arbor.Proofs.Codec.ProtoDepth
import Arbor.Proofs.Codec.ProtoEdit
import Arbor.Proofs.Codec.ProtoFields
import Arbor.Proofs.Codec.Record
import Arbor.Proofs.Codec.Refusal
import Arbor.Proofs.Codec.Separation
import Arbor.Proofs.Codec.Toml
import Arbor.Proofs.Codec.Xml
import Arbor.Proofs.Codec.XmlElement
import Arbor.Proofs.Codec.Yaml
import Arbor.Proofs.Command.Palette
import Arbor.Proofs.Command.Session
import Arbor.Proofs.Command.Suffix
import Arbor.Proofs.Diff.Align
import Arbor.Proofs.Diff.Match
import Arbor.Proofs.Diff.Outline
import Arbor.Proofs.Diff.Patch
import Arbor.Proofs.Diff.Position
import Arbor.Proofs.Diff.Prefilter
import Arbor.Proofs.Diff.Replay
import Arbor.Proofs.Diff.Scope
import Arbor.Proofs.Diff.Sides
import Arbor.Proofs.Digest.Collision
import Arbor.Proofs.Digest.Locality
import Arbor.Proofs.Digest.Table
import Arbor.Proofs.Json.Nesting
import Arbor.Proofs.Json.Patch
import Arbor.Proofs.Json.Replacement
import Arbor.Proofs.Json.Text
import Arbor.Proofs.Json.Value
import Arbor.Proofs.Json.Written
import Arbor.Proofs.Number.Digits
import Arbor.Proofs.Number.Numeral
import Arbor.Proofs.Number.Rounding
import Arbor.Proofs.Number.Shortest
import Arbor.Proofs.Number.Spelling
import Arbor.Proofs.Query.Selection
import Arbor.Proofs.Store.Counters
import Arbor.Proofs.Store.Entry
import Arbor.Proofs.Store.History
import Arbor.Proofs.Store.Integrity
import Arbor.Proofs.Store.Limits
import Arbor.Proofs.Store.Outcome
import Arbor.Proofs.Store.Refinement
import Arbor.Proofs.Store.Removal
import Arbor.Proofs.Store.Table
import Arbor.Proofs.Text.Codes
import Arbor.Proofs.Text.Quoted
import Arbor.Proofs.Text.Token
import Arbor.Proofs.Text.Unquote
import Arbor.Proofs.Text.Utf8
import Arbor.Proofs.Toml.Parser
import Arbor.Proofs.Toml.Scope
import Arbor.Proofs.Tree.Build
import Arbor.Proofs.Tree.Calls
import Arbor.Proofs.Tree.Copy
import Arbor.Proofs.Tree.Dispatch
import Arbor.Proofs.Tree.Equality
import Arbor.Proofs.Tree.Label
import Arbor.Proofs.Tree.Marked
import Arbor.Proofs.Tree.Memo
import Arbor.Proofs.Tree.Merkle
import Arbor.Proofs.Tree.Order
import Arbor.Proofs.Tree.Outline
import Arbor.Proofs.Tree.Payload
import Arbor.Proofs.Tree.Place
import Arbor.Proofs.Tree.PostOrder
import Arbor.Proofs.Tree.Preorder
import Arbor.Proofs.Tree.Shape
import Arbor.Proofs.Tree.Subtree
import Arbor.Proofs.Tree.Symmetry
import Arbor.Proofs.Tree.Traversal
import Arbor.Proofs.Tree.Validity
import Arbor.Proofs.Tree.Verdict
import Arbor.Proofs.Wire.Grammar
import Arbor.Proofs.Wire.Words
import Arbor.Proofs.Yaml.Block
import Arbor.Proofs.Yaml.Scalar
import Arbor.Proofs.Zstd.Frame
import Arbor.Query.Basic
import Arbor.Query.Eval
import Arbor.Query.Expr
import Arbor.Query.Token
import Arbor.Query.Typing
import Arbor.Query.Value
import Arbor.Regex.Basic
import Arbor.Regex.Parser
import Arbor.Settings
import Arbor.Store.Basic
import Arbor.Store.Counters
import Arbor.Store.File
import Arbor.Store.Request
import Arbor.Store.Table
import Arbor.Text.Bytes
import Arbor.Text.Printable
import Arbor.Text.Quoted
import Arbor.Text.Utf8
import Arbor.Toml.Parser
import Arbor.Toml.Scope
import Arbor.Toml.Value
import Arbor.Trace.Message
import Arbor.Trace.Note
import Arbor.Tree.Basic
import Arbor.Tree.Difference
import Arbor.Tree.Fault
import Arbor.Tree.Hash
import Arbor.Tree.Marked
import Arbor.Tree.Order
import Arbor.Tree.Outline
import Arbor.Tree.Rebuild
import Arbor.Tree.Sample
import Arbor.Tree.Traversal
import Arbor.Wire.Varint
import Arbor.Yaml.Node
import Arbor.Yaml.Parser
import Arbor.Zstd.Frame
