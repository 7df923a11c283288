import QueryShorthand.Text.Blank
import QueryShorthand.Text.Utf8

/-! Shorthand strings given one per line. -/

namespace QueryShorthand
set_option autoImplicit false

/-- The trimmed lines of a byte string that are not blank, or `none` when a line is not
UTF-8. -/
def readFields (bytes : List UInt8) : Option (List Text) := do
  let lines ← (pieces 0x0A bytes).mapM Utf8.decode?
  return (lines.map trim).filter (· ≠ [])

end QueryShorthand
