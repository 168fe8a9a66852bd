import Arbor.Codec.Basic
import Arbor.Json.Patch

/-! A JSON patch applied to the JSON form of a tree. -/
namespace Arbor

inductive PatchError where
  | codec (error : CodecError)
  | badPatch
  deriving DecidableEq, Repr

def PatchError.message : PatchError → String
  | codec e => e.message
  | badPatch => "bad patch"

namespace Tree

def patchedForm (limit : Int) (t : Tree) (patch : Patch) : Except PatchError JsonValue := do
  let written ← (Codec.write limit {} t).mapError .codec
  match (JsonValue.parseWith? .written written).bind patch.run? with
  | none => .error .badPatch
  | some form => .ok form

def ofPatched (limit : Int) (form : JsonValue) : Except CodecError Tree := do
  let shallow := if JsonValue.maxNesting < form.nesting then none else some form.resolve
  let r ← Codec.encoded (shallow.bind Record.ofJson?)
  (r.toTree limit).mapError .fault

/-- The tree after a patch to its JSON form. -/
def applyPatch (limit : Int) (t : Tree) (text : Bytes) : Except PatchError Tree :=
  match Patch.parse? text with
  | none => .error .badPatch
  | some patch => do
    let form ← t.patchedForm limit patch
    (ofPatched limit form).mapError .codec

end Tree

end Arbor
