import IonDocument.Text.Numeral

/-! # Escaping inside quotes

Strings and quoted symbols hold any characters and clobs any bytes. Inside the quotes a
backslash begins every escape; the quote itself, the backslash and all control characters are
escaped, and everything else stands for itself.
-/
namespace IonDocument.Escape

/-- Strings and clobs stand in double quotes, symbols in single ones. -/
inductive Quote where
  | double | single
  deriving DecidableEq

def Quote.char : Quote → Char
  | .double => '"'
  | .single => '\''

/-- The named escapes come first, then the quote, then the control characters below 128 in two
hexadecimal digits and those above in four. -/
def character (q : Quote) (c : Char) : List Char :=
  if c = '\\' then ['\\', '\\']
  else if c = '\n' then ['\\', 'n']
  else if c = '\r' then ['\\', 'r']
  else if c = '\t' then ['\\', 't']
  else if c = q.char then ['\\', c]
  else if c.toNat < 0x20 ∨ c.toNat = 0x7F then '\\' :: 'x' :: Numeral.hexByte c.toNat
  else if 0x80 ≤ c.toNat ∧ c.toNat < 0xA0 then '\\' :: 'u' :: '0' :: '0' :: Numeral.hexByte c.toNat
  else [c]

def text (q : Quote) (cs : List Char) : List Char := cs.flatMap (character q)

/-- Bytes outside printable ASCII are written in two hexadecimal digits. -/
def byte (b : UInt8) : List Char :=
  let n := b.toNat
  if n = 0x22 then ['\\', '"']
  else if n = 0x5C then ['\\', '\\']
  else if 0x20 ≤ n ∧ n ≤ 0x7E then [Char.ofNat n]
  else '\\' :: 'x' :: Numeral.hexByte n

def bytes (bs : List UInt8) : List Char := bs.flatMap byte

def quoted (q : Quote) (cs : List Char) : List Char := q.char :: text q cs ++ [q.char]

end IonDocument.Escape
