import ApiOutline.Text.Blank

/-!
# JSON with comments

Configuration files may hold line comments, block comments and a comma after the last item of a
container. Both passes here work on the text alone: the first drops the comments that stand
outside string literals, the second drops every comma before a closing bracket. A quote that no
later quote closes begins no literal, and a block comment that is not closed is no comment.
The second pass does not look for literals.
-/

namespace ApiOutline

namespace Json

/-- Whether a string literal that has begun is closed further on; a backslash takes the next
character with it. -/
def closesString : List Char → Bool
  | [] => false
  | '"' :: _ => true
  | '\\' :: _ :: cs => closesString cs
  | '\\' :: [] => false
  | _ :: cs => closesString cs

/-- Whether a block comment that has begun is closed further on. -/
def closesBlock : List Char → Bool
  | [] => false
  | '*' :: '/' :: _ => true
  | _ :: cs => closesBlock cs

/-- What the characters at hand belong to. -/
inductive Region where
  | plain
  | literal
  | lineComment
  | blockComment

/-- Keeps the plain text and the literals from `region` on. -/
def dropComments : Region → List Char → List Char
  | _, [] => []
  | .plain, '"' :: cs => '"' :: dropComments (if closesString cs then .literal else .plain) cs
  | .plain, '/' :: '/' :: cs => dropComments .lineComment cs
  | .plain, '/' :: '*' :: cs =>
    if closesBlock cs then dropComments .blockComment cs
    else '/' :: '*' :: dropComments .plain cs
  | .plain, c :: cs => c :: dropComments .plain cs
  | .literal, '"' :: cs => '"' :: dropComments .plain cs
  | .literal, '\\' :: c :: cs => '\\' :: c :: dropComments .literal cs
  | .literal, c :: cs => c :: dropComments .literal cs
  | .lineComment, '\n' :: cs => '\n' :: dropComments .plain cs
  | .lineComment, _ :: cs => dropComments .lineComment cs
  | .blockComment, '*' :: '/' :: cs => dropComments .plain cs
  | .blockComment, _ :: cs => dropComments .blockComment cs

/-- Whether a closing bracket or brace comes next but for blanks. -/
def closesNext (cs : List Char) : Bool :=
  match cs.dropWhile Text.isBlank with
  | '\x7d' :: _ => true
  | ']' :: _ => true
  | _ => false

/-- Drops the commas before closing brackets and braces. -/
def dropLastCommas : List Char → List Char
  | [] => []
  | c :: cs => if c == ',' && closesNext cs then dropLastCommas cs else c :: dropLastCommas cs

/-- The plain JSON text of a text with comments. -/
def stripComments (text : String) : String :=
  String.ofList (dropLastCommas (dropComments .plain text.toList))

end Json

end ApiOutline
