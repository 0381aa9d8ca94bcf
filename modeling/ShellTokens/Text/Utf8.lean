/-!
# Decoding UTF-8

Any bytes can be shown as text: each longest beginning of a character that the following byte does
not continue, and each byte that begins no character, becomes one replacement character.
-/

namespace ShellTokens.Text

/-- The character that stands for bytes that are no character. -/
def replacement : Char :=
  Char.ofNat 0xfffd

/-- A character of which some bytes are still missing. -/
structure PartialChar where
  /-- The number of bytes to come. -/
  missing : Nat
  /-- The least value of the next byte. -/
  lo : UInt8
  /-- The greatest value of the next byte. -/
  hi : UInt8
  /-- The bits read so far. -/
  bits : Nat
deriving DecidableEq, Repr

namespace PartialChar

/-- The first byte of a character of more than one byte. The bounds on the second byte leave out
longer forms than needed, surrogates and code points that are too large. -/
def ofLead? (b : UInt8) : Option PartialChar :=
  if 0xc2 ≤ b ∧ b ≤ 0xdf then some ⟨1, 0x80, 0xbf, b.toNat - 0xc0⟩
  else if b = 0xe0 then some ⟨2, 0xa0, 0xbf, 0⟩
  else if b = 0xed then some ⟨2, 0x80, 0x9f, 0xd⟩
  else if 0xe1 ≤ b ∧ b ≤ 0xef then some ⟨2, 0x80, 0xbf, b.toNat - 0xe0⟩
  else if b = 0xf0 then some ⟨3, 0x90, 0xbf, 0⟩
  else if 0xf1 ≤ b ∧ b ≤ 0xf3 then some ⟨3, 0x80, 0xbf, b.toNat - 0xf0⟩
  else if b = 0xf4 then some ⟨3, 0x80, 0x8f, 4⟩
  else none

end PartialChar

/-- The text read, and the character begun, after the byte `b` where a character begins. -/
def beginChar (b : UInt8) : List Char × Option PartialChar :=
  if b < 0x80 then ([Char.ofNat b.toNat], none)
  else
    match PartialChar.ofLead? b with
    | some p => ([], some p)
    | none => ([replacement], none)

/-- The same after the byte `b` in any place. -/
def readByte : Option PartialChar → UInt8 → List Char × Option PartialChar
  | none, b => beginChar b
  | some p, b =>
    if p.lo ≤ b ∧ b ≤ p.hi then
      let bits := p.bits * 64 + (b.toNat - 0x80)
      if p.missing ≤ 1 then ([Char.ofNat bits], none)
      else ([], some ⟨p.missing - 1, 0x80, 0xbf, bits⟩)
    else
      let (chars, state) := beginChar b
      (replacement :: chars, state)

/-- The characters of the bytes. -/
def decodeChars (bytes : List UInt8) : List Char :=
  go none bytes
where
  go : Option PartialChar → List UInt8 → List Char
    | none, [] => []
    | some _, [] => [replacement]
    | state, b :: rest =>
      let (chars, state') := readByte state b
      chars ++ go state' rest

/-- The bytes as text. -/
def decode (bytes : Array UInt8) : String :=
  String.ofList (decodeChars bytes.toList)

end ShellTokens.Text
