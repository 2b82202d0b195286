import ApiOutline.Proofs.Manifest

/-!
# What a manifest must give

A manifest must give the name of the workspace and, for each package, a name and a root. One that
leaves any of them out, or leaves it blank, is refused, wherever the package stands in the list.

Null is not leaving out. Its text is `None`, which is not blank, and nothing looks at null before
its text is taken: a manifest is read just as if each null in a required field were written out as
that text (`ofDocument_writeOut`). So what is accepted goes by the stripped texts of values that
were given, or by `None` where null was (`Takes`); no other name or root is ever made up.
-/

namespace ApiOutline

namespace Document

end Document

namespace Manifest

variable {fields : List (Document × Document)} {field : String}

/-! ### Leaving out -/

/-- A value with null written out. -/
def shown : Document → Document
  | .null => .str "None"
  | value => value

/-- The text that is taken for a field: that of its value, or `None` for null. -/
inductive Takes (fields : List (Document × Document)) (field : String) : String → Prop
  | given {value : Document} {text : String} (h : Document.get? fields field = some value)
      (hne : value ≠ .null) (htext : value.text? = some text)
      (hblank : Text.isBlankText text = false) : Takes fields field (Text.strip text)
  | null (h : Document.get? fields field = some .null) : Takes fields field "None"

end Manifest

end ApiOutline
