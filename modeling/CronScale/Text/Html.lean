/-!
# Text inside a page

The six characters `&`, `<`, `>`, `"`, `'` and `/` are written as character references, every
other one as itself, so that a text never opens, closes or changes an element.
-/

namespace CronScale.Text

def escapeChar : Char → List Char
  | '&' => "&amp;".toList
  | '<' => "&lt;".toList
  | '>' => "&gt;".toList
  | '\"' => "&quot;".toList
  | '\'' => "&#x27;".toList
  | '/' => "&#x2F;".toList
  | c => [c]

def escapeHtml (s : String) : String := String.ofList (s.toList.flatMap escapeChar)

end CronScale.Text
