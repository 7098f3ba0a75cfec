import CronScale.Text.Numeral
import CronScale.Text.Printable
/-!
# Text between quotes

A quoted text shows what it holds on one line: a quote and a backslash stand behind a backslash,
and so does the letter of a tab, a line feed, a carriage return or a null character. Any other
character that cannot be shown is given by its code in hexadecimal.
-/

namespace CronScale.Text

def quoteChar (c : Char) : List Char :=
  match c with
  | '\t' => ['\\', 't']
  | '\n' => ['\\', 'n']
  | '\r' => ['\\', 'r']
  | '\x00' => ['\\', '0']
  | '\"' => ['\\', '\"']
  | '\\' => ['\\', '\\']
  | c =>
    if isPrintable c then [c]
    else ['\\', 'u', '\x7b'] ++ (hexadecimal c.toNat).toList ++ ['\x7d']

def quoted (s : String) : String :=
  String.ofList (['\"'] ++ s.toList.flatMap quoteChar ++ ['\"'])

end CronScale.Text
