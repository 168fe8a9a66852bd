import Arbor.Text.Quoted

/-! The six formats a tree can be written in, their names and suffixes. -/
namespace Arbor

inductive Format where
  | json
  | yaml
  | toml
  | xml
  | cbor
  | proto
  deriving DecidableEq, Repr, Inhabited

inductive FormatError where
  | name (name : Bytes)
  | number (n : Int)
  deriving DecidableEq, Repr

def FormatError.message : FormatError → String
  | name n => "bad format: " ++ quoted n
  | number n => "bad format: " ++ toString n ++ " is not a format"

namespace Format

/-- All formats in order of preference. -/
def all : List Format := [json, yaml, toml, xml, cbor, proto]

def ordinal : Format → Nat
  | json => 0
  | yaml => 1
  | toml => 2
  | xml => 3
  | cbor => 4
  | proto => 5

def ofOrdinal (n : Int) : Except FormatError Format :=
  match all.find? fun f => (f.ordinal : Int) = n with
  | some f => .ok f
  | none => .error (.number n)

def name : Format → String
  | json => "json"
  | yaml => "yaml"
  | toml => "toml"
  | xml => "xml"
  | cbor => "cbor"
  | proto => "proto"

def names : Format → List String
  | json => ["j", "json"]
  | yaml => ["y", "yaml", "yml"]
  | toml => ["t", "toml"]
  | xml => ["x", "xml"]
  | cbor => ["c", "cbor"]
  | proto => ["p", "pb", "proto"]

/-- The format with a name in any case. -/
def ofName (b : Bytes) : Except FormatError Format :=
  let lower := Utf8.ofChars ((Utf8.chars b).map Utf8.lowerAscii)
  match all.find? fun f => f.names.any fun n => Bytes.ofString n = lower with
  | some f => .ok f
  | none => .error (.name b)

def isBinary (f : Format) : Bool := f = cbor || f = proto

def suffix : Format → String
  | json => ".json"
  | yaml => ".yaml"
  | toml => ".toml"
  | xml => ".xml"
  | cbor => ".cbor"
  | proto => ".pb"

def dropCompression (path : Bytes) : Bytes :=
  let zst := Bytes.ofString ".zst"
  if zst.isSuffixOf path then path.take (path.length - zst.length) else path

/-- What follows the last point of the last part of a path, if there is one. -/
def extension? (path : Bytes) : Option Bytes :=
  let tail := path.reverse.takeWhile (· ≠ 47)
  let ext := tail.takeWhile (· ≠ 46)
  if ext.length < tail.length then some ext.reverse else none

def suffixFormat? (path : Bytes) : Option Format :=
  (extension? (dropCompression path)).bind fun ext =>
    if ext = [] then none else (ofName ext).toOption

/-- The format that the suffix of a path names, else JSON. -/
def ofSuffix (path : Bytes) : Format := (suffixFormat? path).getD json

end Format

end Arbor
