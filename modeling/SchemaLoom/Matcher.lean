import SchemaLoom.Document.Definition
import SchemaLoom.Pattern.Basic

namespace SchemaLoom

/-! Matchers select definitions by name: a whole name, or a pattern that is found
somewhere in it.  What has no name is never selected. -/

inductive Matcher where
  | name (expected : String)
  | pattern (expected : Pattern)
  deriving DecidableEq, Repr

namespace Matcher

def matchesName (matcher : Matcher) (candidate : String) : Bool :=
  match matcher with
  | .name expected => expected == candidate
  | .pattern expected => expected.isMatch candidate

def selects (matcher : Matcher) (definition : Definition) : Bool :=
  definition.name?.any matcher.matchesName

def display : Matcher → String
  | .name expected => s!"`{expected}`"
  | .pattern expected => s!"/{expected.source}/"

end Matcher

end SchemaLoom
