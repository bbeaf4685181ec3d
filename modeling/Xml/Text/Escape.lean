import Xml.Text.Chars
import Xml.Text.Classes

/-!
# Escaping

How text is written into markup and into messages. Character data, attribute values and free-standing
text each replace their own set of characters by references. Messages quote text: in double quotes,
with a backslash before quotes and backslashes, short names for the common controls, and the code
point of any other character that does not show.
-/

namespace Xml.Text

/-- Character data: `&`, `<`, `>` and the carriage return. -/
def escapeTextChar (c : Char) : List Char :=
  match c with
  | '&' => "&amp;".toList
  | '<' => "&lt;".toList
  | '>' => "&gt;".toList
  | '\r' => "&#13;".toList
  | c => [c]

/-- Attribute values, which stand in double quotes: also the quote and all white space but the
space, which reading would otherwise turn into spaces. -/
def escapeAttributeChar (c : Char) : List Char :=
  match c with
  | '&' => "&amp;".toList
  | '<' => "&lt;".toList
  | '>' => "&gt;".toList
  | '"' => "&quot;".toList
  | '\n' => "&#10;".toList
  | '\r' => "&#13;".toList
  | '\t' => "&#9;".toList
  | c => [c]

def escapeText (text : String) : String :=
  String.ofList (text.toList.flatMap escapeTextChar)

def escapeAttribute (text : String) : String :=
  String.ofList (text.toList.flatMap escapeAttributeChar)

/-- Replaces every `c` by a text. -/
def replaceChar (c : Char) (replacement : String) (text : List Char) : List Char :=
  text.flatMap fun d => if d == c then replacement.toList else [d]

/-- Free-standing text: `&`, `<`, `>`, the double quote and the carriage return, one after the
other. The ampersand comes first, so that none of the references written later is taken apart. -/
def encodeSpecial (text : String) : String :=
  String.ofList <|
    replaceChar '\r' "&#13;" <|
      replaceChar '"' "&quot;" <|
        replaceChar '>' "&gt;" <|
          replaceChar '<' "&lt;" <|
            replaceChar '&' "&amp;" text.toList

/-- The content of a CDATA section. `]]>` cannot stand in one, so it is split over two sections. -/
def splitCData : List Char → List Char
  | ']' :: ']' :: '>' :: rest => "]]]]><![CDATA[>".toList ++ splitCData rest
  | c :: rest => c :: splitCData rest
  | [] => []

/-! ## Messages -/

def quoteChar (c : Char) : List Char :=
  match c with
  | '"' => ['\\', '"']
  | '\\' => ['\\', '\\']
  | '\n' => ['\\', 'n']
  | '\t' => ['\\', 't']
  | '\r' => ['\\', 'r']
  | '\x00' => ['\\', '0']
  | c =>
    if isVisible c then [c]
    else '\\' :: 'u' :: '\x7b' :: (Nat.toDigits 16 c.toNat ++ ['\x7d'])

def quoted (text : String) : String :=
  String.ofList ('"' :: (text.toList.flatMap quoteChar ++ ['"']))

end Xml.Text
