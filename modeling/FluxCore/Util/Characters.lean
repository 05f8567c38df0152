/-!
# Characters

The classes of characters of `util.cc` that more than one part of the program uses.
-/

namespace FluxCore.Util

def isDigit (c : UInt8) : Bool := 0x30 ≤ c && c ≤ 0x39

def isHexDigit (c : UInt8) : Bool :=
  isDigit c || (0x41 ≤ c && c ≤ 0x46) || (0x61 ≤ c && c ≤ 0x66)

def isLws (c : UInt8) : Bool := c == 0x20 || c == 0x09

def isCRLF (c : UInt8) : Bool := c == 0x0d || c == 0x0a

def hexCharToUInt (ch : UInt8) : UInt8 :=
  if 0x61 ≤ ch ∧ ch ≤ 0x66 then ch - 0x61 + 10
  else if 0x41 ≤ ch ∧ ch ≤ 0x46 then ch - 0x41 + 10
  else if 0x30 ≤ ch ∧ ch ≤ 0x39 then ch - 0x30
  else 255

end FluxCore.Util
