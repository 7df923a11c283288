import QueryShorthand.Text.Digits

/-! What can be wrong with a shorthand string, where, and the sentence that says so. -/

namespace QueryShorthand
set_option autoImplicit false

inductive Reason where
  /-- A connector with nothing after it, or an empty shorthand string. -/
  | emptySegment
  | unclosedParen
  | unmatchedParen
  /-- Anything but a connector or another label after a closing parenthesis. -/
  | trailingText
  | emptyLabel
  /-- A label that is neither a filter nor an alias; it carries the label's text. -/
  | malformedFilter (body : Text)
  | emptyFilterKey
  | emptyFilterValue
  | emptyAliasTarget
  | emptyAlias
  deriving DecidableEq

structure Fault where
  position : Nat
  reason : Reason
  deriving DecidableEq

structure ParseError extends Fault where
  spec : Text
  deriving DecidableEq

def Fault.inside (fault : Fault) (spec : Text) : ParseError := { fault with spec }

def Reason.message : Reason → Text
  | .emptySegment => "expected a field name".toList
  | .unclosedParen => "'(' is never closed".toList
  | .unmatchedParen => "')' without a matching '('".toList
  | .trailingText => "unexpected text after ')'".toList
  | .emptyLabel => "empty annotation '()'".toList
  | .malformedFilter body =>
      "malformed filter '".toList ++ body ++ "', expected 'key:value' or 'name as alias'".toList
  | .emptyFilterKey => "filter key is empty".toList
  | .emptyFilterValue => "filter value is empty".toList
  | .emptyAliasTarget => "alias target is empty".toList
  | .emptyAlias => "alias is empty".toList

/-- The string is quoted as it stands, nothing in it is escaped. -/
def ParseError.message (e : ParseError) : Text :=
  "cannot parse '".toList ++ e.spec ++ "' at position ".toList ++ decimal e.position ++
    ": ".toList ++ e.reason.message

end QueryShorthand
