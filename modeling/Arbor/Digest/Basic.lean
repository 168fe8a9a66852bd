import Arbor.Tree.Marked
import Arbor.Digest.Sha256

/-! Digests do not depend on the process, so they can name trees. -/
namespace Arbor

inductive DigestError where
  | format
  | algorithm
  | length
  deriving DecidableEq, Repr

def DigestError.message : DigestError → String
  | format => "invalid checksum digest format"
  | algorithm => "unsupported digest algorithm"
  | length => "invalid checksum digest length"

namespace Digest

def isLower (b : UInt8) : Bool := 97 ≤ b && b ≤ 122
def isAlnum (b : UInt8) : Bool := isLower b || Bytes.isDigit b

/-- Words of small letters and digits, with one of `.+_-` between neighbours. -/
def isAlgorithm : Bytes → Bool
  | [] => false
  | [b] => isAlnum b
  | b :: c :: rest =>
    isAlnum b && (if isAlnum c then isAlgorithm (c :: rest)
      else (c = 46 || c = 43 || c = 95 || c = 45) && isAlgorithm rest)

def isEncoded (b : Bytes) : Bool :=
  b ≠ [] && b.all fun x => isAlnum x || (65 ≤ x && x ≤ 90) || x = 61 || x = 95 || x = 45

def isHex (b : Bytes) : Bool := b.all fun x => Bytes.isDigit x || (97 ≤ x && x ≤ 102)

/-- How many hexadecimal digits a hash of a known algorithm has. -/
def hexLength? (algorithm : Bytes) : Option Nat :=
  if algorithm = Bytes.ofString "sha256" then some 64
  else if algorithm = Bytes.ofString "sha384" then some 96
  else if algorithm = Bytes.ofString "sha512" then some 128
  else none

/-- Whether a text is the digest of some byte string. -/
def validate (d : Bytes) : Except DigestError Unit :=
  match Bytes.cut 58 d with
  | (_, none) => .error .format
  | (algorithm, some encoded) =>
    if algorithm = [] ∨ encoded = [] then .error .format
    else match hexLength? algorithm with
      | some length =>
        if encoded.length ≠ length then .error .length
        else if isHex encoded then .ok ()
        else .error .format
      | none =>
        if isAlgorithm algorithm && isEncoded encoded then .error .algorithm
        else .error .format

def write (encoded : Bytes) : Bytes := Bytes.ofString "sha256:" ++ encoded

end Digest

namespace Head

/-- The bytes digested for a node; the digests of the children are hexadecimal. -/
def digestInput (h : Head) (children : List Bytes) : Bytes :=
  Wire.counted (Bytes.ofString h.kind.name) ++ h.payloadBytes ++ children.flatten

end Head

namespace Tree

def digestsWith (hash : Bytes → Bytes) (limit : Int) (t : Tree) : Except Fault (Marked Bytes) :=
  t.markAt (fun h cs => Bytes.toHex (hash (h.digestInput cs))) .digesting limit 0

def digests (limit : Int) (t : Tree) : Except Fault (Marked Bytes) :=
  t.digestsWith Sha256.hash limit

def digestWith (hash : Bytes → Bytes) (limit : Int) (t : Tree) : Except Fault Bytes :=
  (t.digestsWith hash limit).map fun m => Digest.write m.value

def digest (limit : Int) (t : Tree) : Except Fault Bytes := t.digestWith Sha256.hash limit

end Tree

inductive VerifyError where
  | digest (error : DigestError)
  | fault (fault : Fault)
  deriving DecidableEq, Repr

def VerifyError.message : VerifyError → String
  | digest e => e.message
  | fault f => f.message

def Tree.verify (limit : Int) (t : Tree) (d : Bytes) : Except VerifyError Bool := do
  (Digest.validate d).mapError .digest
  let found ← (t.digest limit).mapError .fault
  return found = d

end Arbor
