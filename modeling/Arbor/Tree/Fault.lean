import Arbor.Kind

/-! The class of a fault is what callers react to, the message is what people read. -/
namespace Arbor

inductive Operation where
  | comparing
  | hashing
  | visiting
  | digesting
  | matching
  deriving DecidableEq, Repr

def Operation.phrase : Operation → String
  | comparing => "comparing an absent node"
  | hashing => "hashing an absent node"
  | visiting => "visiting an absent node"
  | digesting => "digest of an absent node"
  | matching => "matching an absent node"

def Family.phrase : Family → String
  | expression => "an expression"
  | statement => "a statement"

inductive Fault where
  | noKind (ordinal : Int)
  | noKindNamed (name : Bytes)
  /-- A null in place of a node. -/
  | nullNode
  /-- A field of a message in another form than its number asks for. -/
  | wireType (field form : Nat)
  /-- A handler under an ordinal that is no kind. -/
  | strayHandler (ordinal : Int)
  | childCount (kind : Kind) (count : Nat)
  | childAbsent (kind : Kind) (index : Nat)
  | childFamily (kind : Kind) (index : Nat) (found : Kind) (wanted : Family)
  | absentTree (operation : Operation)
  /-- Comparing conditionals of which one lacks a required child. -/
  | bareConditional
  | noResult (kind : Kind)
  | tooDeep (limit : Int)
  | noHandlers (kinds : List Kind)
  | unhandled (kind : Kind)
  /-- A handler's own refusal. -/
  | refused (reason : String)
  deriving DecidableEq, Repr

namespace Fault

inductive Class where
  | malformed
  | shapeMismatch
  | tooDeep
  | unhandledVariant
  | handler
  deriving DecidableEq, Repr

def cls : Fault → Class
  | noKind _ | noKindNamed _ | nullNode | wireType _ _ | strayHandler _ | childCount _ _ =>
    .malformed
  | childAbsent _ _ | childFamily _ _ _ _ | absentTree _ | bareConditional | noResult _ =>
    .shapeMismatch
  | tooDeep _ => .tooDeep
  | noHandlers _ | unhandled _ => .unhandledVariant
  | refused _ => .handler

/-- The words a class puts before the cause. -/
def Class.lead : Class → String
  | malformed => "malformed input: "
  | shapeMismatch => "shape mismatch: "
  | tooDeep => "tree too deep: "
  | unhandledVariant => "unhandled variant: "
  | handler => ""

def cause : Fault → String
  | noKind n => "kind " ++ toString n
  | noKindNamed name => "unrecognized kind " ++ quoted name
  | nullNode => "null node"
  | wireType field form => "field " ++ toString field ++ " has wire type " ++ toString form
  | strayHandler n => "handler for unknown kind " ++ toString n
  | childCount k n => k.name ++ " with " ++ toString n ++ " children"
  | childAbsent k i => k.name ++ " child " ++ toString i ++ " is absent"
  | childFamily k i found wanted =>
    k.name ++ " child " ++ toString i ++ " is " ++ found.name ++ ", want " ++ wanted.phrase
  | absentTree op => op.phrase
  | bareConditional => "IfElseStatement without condition or true branch"
  | noResult k => "handler for " ++ k.name ++ " returned no node"
  | tooDeep limit => "exceeds " ++ toString limit ++ " levels"
  | noHandlers kinds => "no handler for " ++ ", ".intercalate (kinds.map Kind.name)
  | unhandled k => k.name
  | refused reason => reason

def message (f : Fault) : String := f.cls.lead ++ f.cause

end Fault

end Arbor
