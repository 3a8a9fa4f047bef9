import MethodMetadata.Text.Blank
import MethodMetadata.Text.Hex

/-! Escapes in mapping files. Escaping makes a text of any characters safe as a key or value,
and unescaping gives the text back. -/
namespace MethodMetadata.Mapping

/-- What is written for a character; blanks are escaped where they would be skipped. -/
def escapeChar (escapeSpace : Bool) (c : Char) : List Char :=
  match c with
  | '\\' => ['\\', '\\']
  | '\t' => ['\\', 't']
  | '\n' => ['\\', 'n']
  | '\r' => ['\\', 'r']
  | '\x0c' => ['\\', 'f']
  | '=' => ['\\', '=']
  | ':' => ['\\', ':']
  | '#' => ['\\', '#']
  | '!' => ['\\', '!']
  | ' ' => if escapeSpace then ['\\', ' '] else [' ']
  | c => [c]

/-- A key, in which every space is escaped. -/
def escapeKey (text : List Char) : List Char :=
  text.flatMap (escapeChar true)

/-- A value, in which only a leading space is escaped. -/
def escapeValue : List Char → List Char
  | [] => []
  | c :: rest => escapeChar true c ++ rest.flatMap (escapeChar false)

/-- The character of four hexadecimal digits, of which the first may be a plus sign. -/
def codePoint? (digits : List Char) : Option Char :=
  let read := match digits with
    | '+' :: rest => rest
    | _ => digits
  (read.foldlM (fun n c => (Hex.value? c).map (n * 16 + ·)) 0).bind fun n =>
    if n.isValidChar then some (Char.ofNat n) else none

/-- The character that a letter behind a backslash stands for: a control character, or itself. -/
def unescapeLetter : Char → Char
  | 't' => '\t'
  | 'n' => '\n'
  | 'r' => '\r'
  | 'f' => '\x0c'
  | c => c

/-- Resolves escapes behind the characters already read, which are held in reverse. Fails with
the digits of a bad code point. A backslash at the end stands for nothing. -/
def unescapeOnto (read : List Char) : List Char → Except (List Char) (List Char)
  | [] => .ok read.reverse
  | '\\' :: [] => .ok read.reverse
  | '\\' :: 'u' :: a :: b :: c :: d :: rest =>
    match codePoint? [a, b, c, d] with
    | some decoded => unescapeOnto (decoded :: read) rest
    | none => .error [a, b, c, d]
  | '\\' :: 'u' :: short => .error short
  | '\\' :: c :: rest => unescapeOnto (unescapeLetter c :: read) rest
  | c :: rest => unescapeOnto (c :: read) rest

def unescape (raw : List Char) : Except (List Char) (List Char) :=
  unescapeOnto [] raw

end MethodMetadata.Mapping
