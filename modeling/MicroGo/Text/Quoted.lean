import MicroGo.Text.Combining
import MicroGo.Text.Unprintable

/-!
# Quoted characters and texts

Messages, the log and the token table show characters and texts between quotes, so that what stands
between the quotes can be told apart from the message around it.  The quote itself and the
backslash get a backslash, the four common controls their letter, and whatever would be invisible
or would merge with its surroundings is written by its number, `\u{...}` with lowercase hexadecimal
digits and no padding.  Every other character stands for itself.
-/

namespace MicroGo
namespace Text

/-- A character by its number. -/
def numbered (c : Char) : String :=
  "\\u\x7b" ++ String.ofList (Nat.toDigits 16 c.toNat) ++ "\x7d"

/-- One character as it is written between two `quote`s. -/
def escaped (quote c : Char) : String :=
  if c = '\x00' then "\\0"
  else if c = '\t' then "\\t"
  else if c = '\r' then "\\r"
  else if c = '\n' then "\\n"
  else if c = quote || c = '\\' then String.ofList ['\\', c]
  else if isCombining c || isUnprintable c then numbered c
  else c.toString

/-- A character between single quotes. -/
def quotedChar (c : Char) : String :=
  "'" ++ escaped '\x27' c ++ "'"

/-- A text between double quotes. -/
def quoted (text : String) : String :=
  "\"" ++ String.join (text.toList.map (escaped '\x22')) ++ "\""

end Text
end MicroGo
