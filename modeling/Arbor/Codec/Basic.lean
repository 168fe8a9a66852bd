import Arbor.Codec.Cbor
import Arbor.Codec.Json
import Arbor.Codec.Proto
import Arbor.Codec.Toml
import Arbor.Codec.Xml
import Arbor.Codec.Yaml
import Arbor.Zstd.Frame

/-! Writing and reading trees: a tree is checked before it is written and after it is read. -/
namespace Arbor.Codec

structure WriteOptions where
  /-- The format, or why there is none. -/
  format : Except FormatError Format := .ok .json
  /-- Blanks for each level in the formats that are laid out; none or less is the shortest form. -/
  indent : Int := 0
  compress : Bool := false

structure ReadOptions where
  format : Except FormatError Format := .ok .json
  /-- Whether the input must be a compressed frame. -/
  compressed : Bool := false

def formatName : Except FormatError Format → String
  | .ok f => f.name
  | .error e => e.message

/-- Refuses a record with a text that the format cannot carry. -/
def checkText (format : Except FormatError Format) (r : Record) : Except CodecError Unit :=
  match r.objection? format.toOption with
  | some (kind, text, o) => .error (.text (formatName format) kind text o)
  | none => .ok ()

def encoded (o : Option α) : Except CodecError α :=
  match o with
  | some a => .ok a
  | none => .error .encoding

def writeRecord (indent : Int) (r : Record) : Format → Except CodecError Bytes
  | .json => encoded (writeJson? indent r)
  | .yaml => .ok (writeYaml r)
  | .toml => .ok (writeToml indent r)
  | .xml => .ok (writeXml indent r)
  | .cbor => .ok (writeCbor r)
  | .proto => .error .encoding

def writeValid (o : WriteOptions) (t : Tree) : Except CodecError Bytes :=
  if o.format.toOption = some .proto then .ok (writeProto t)
  else do
    let r := Record.ofTree t
    checkText o.format r
    let f ← o.format.mapError .noFormat
    writeRecord o.indent r f

/-- The bytes of a tree, compressed with a coder if so wanted. -/
def writeWith (z : Zstd.Coder) (limit : Int) (o : WriteOptions) (t : Tree) :
    Except CodecError Bytes := do
  (t.validate limit).mapError .fault
  let b ← writeValid o t
  return if o.compress then z.compress b else b

def write (limit : Int) (o : WriteOptions) (t : Tree) : Except CodecError Bytes :=
  writeWith Zstd.rawCoder limit o t

def readRecord? (b : Bytes) : Format → Option Record
  | .json => readJson? b
  | .yaml => readYaml? b
  | .toml => readToml? b
  | .xml => readXml? b
  | .cbor => readCbor? b
  | .proto => none

def readPlain (limit : Int) (format : Except FormatError Format) (b : Bytes) :
    Except CodecError Tree :=
  if format.toOption = some .proto then readProto limit b
  else do
    let f ← format.mapError .noFormat
    let r ← encoded (readRecord? b f)
    (r.toTree limit).mapError .fault

/-- The bytes inside a frame of a coder, if there must be one or one is there. -/
def unwrapWith (z : Zstd.Coder) (compressed : Bool) (b : Bytes) : Except CodecError Bytes :=
  if compressed || Zstd.magic.isPrefixOf b then encoded (z.decompress? b) else .ok b

def unwrap (compressed : Bool) (b : Bytes) : Except CodecError Bytes :=
  unwrapWith Zstd.rawCoder compressed b

def readWith (z : Zstd.Coder) (limit : Int) (o : ReadOptions) (b : Bytes) :
    Except CodecError Tree := do
  let b ← unwrapWith z o.compressed b
  readPlain limit o.format b

def read (limit : Int) (o : ReadOptions) (b : Bytes) : Except CodecError Tree :=
  readWith Zstd.rawCoder limit o b

end Arbor.Codec
