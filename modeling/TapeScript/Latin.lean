/-! Bytes as characters: a byte stands for the character whose code it is. -/

namespace TapeScript.Latin

def char (byte : UInt8) : Char := Char.ofNat byte.toNat

/-- Control characters, the two kinds of blank beside the space, and the soft hyphen
leave no mark of their own. -/
def isHidden (byte : UInt8) : Bool :=
  byte < 0x20 || (0x7f ≤ byte && byte ≤ 0xa0) || byte == 0xad

def hex (byte : UInt8) : String := String.ofList (Nat.toDigits 16 byte.toNat)

/-- Six characters have a short escape, hidden ones are given by their code, and all
others stand for themselves. -/
def escaped (byte : UInt8) : String :=
  match char byte with
  | '\x00' => "\\0"
  | '\t' => "\\t"
  | '\n' => "\\n"
  | '\r' => "\\r"
  | '\'' => "\\'"
  | '\\' => "\\\\"
  | c => if isHidden byte then "\\u\x7b" ++ hex byte ++ "\x7d" else c.toString

def quoted (byte : UInt8) : String := "'" ++ escaped byte ++ "'"

end TapeScript.Latin
