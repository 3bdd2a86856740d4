import TorrentEngine.Text.Hidden

/-!
Quoted texts for people. A quoted text stands between double quotes; the quote itself and the
backslash are escaped, and so are characters that would not be shown as themselves.
-/

namespace TorrentEngine.Text

/-- The lower-case hexadecimal digits of a code point, without leading zeros. -/
def codePoint (c : Char) : List Char := Nat.toDigits 16 c.toNat

def quoteChar (c : Char) : List Char :=
  match c with
  | '"' => ['\\', '"']
  | '\\' => ['\\', '\\']
  | '\t' => ['\\', 't']
  | '\r' => ['\\', 'r']
  | '\n' => ['\\', 'n']
  | '\x00' => ['\\', '0']
  | c => if isHidden c then ['\\', 'u', '\x7b'] ++ codePoint c ++ ['\x7d'] else [c]

def quoted (s : String) : String :=
  String.ofList ('"' :: s.toList.flatMap quoteChar ++ ['"'])

end TorrentEngine.Text
