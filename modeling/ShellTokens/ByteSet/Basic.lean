/-!
# Sets of bytes

A set of byte values is stored as four words of 64 bits: byte `b` belongs to the set when bit
`b % 64` of word `b / 64` is one. Membership is the view through which every operation is described.
-/

namespace ShellTokens

@[ext] structure ByteSet where
  /-- The members below 64. -/
  word0 : UInt64
  /-- The members from 64 to 127. -/
  word1 : UInt64
  /-- The members from 128 to 191. -/
  word2 : UInt64
  /-- The members from 192 on. -/
  word3 : UInt64
deriving DecidableEq, Repr

namespace ByteSet

def empty : ByteSet := ⟨0, 0, 0, 0⟩

/-- The set of all 256 bytes. -/
def full : ByteSet := ⟨~~~0, ~~~0, ~~~0, ~~~0⟩

instance : EmptyCollection ByteSet := ⟨empty⟩

instance : Inhabited ByteSet := ⟨empty⟩

/-- The word in which the bit of `b` lies. -/
def word (s : ByteSet) (b : UInt8) : UInt64 :=
  if b < 64 then s.word0 else if b < 128 then s.word1 else if b < 192 then s.word2 else s.word3

/-- The word in which only the bit of `b` is one. -/
def mask (b : UInt8) : UInt64 :=
  1 <<< (b % 64).toUInt64

def contains (s : ByteSet) (b : UInt8) : Bool :=
  s.word b &&& mask b != 0

instance : Membership UInt8 ByteSet where
  mem s b := s.contains b = true

instance (b : UInt8) (s : ByteSet) : Decidable (b ∈ s) :=
  inferInstanceAs (Decidable (s.contains b = true))

def insert (s : ByteSet) (b : UInt8) : ByteSet :=
  if b < 64 then { s with word0 := s.word0 ||| mask b }
  else if b < 128 then { s with word1 := s.word1 ||| mask b }
  else if b < 192 then { s with word2 := s.word2 ||| mask b }
  else { s with word3 := s.word3 ||| mask b }

def ofList (l : List UInt8) : ByteSet :=
  l.foldl insert empty

/-- The set of the characters of an ASCII text. -/
def ofText (text : String) : ByteSet :=
  ofList text.toUTF8.data.toList

def union (s t : ByteSet) : ByteSet :=
  ⟨s.word0 ||| t.word0, s.word1 ||| t.word1, s.word2 ||| t.word2, s.word3 ||| t.word3⟩

instance : Union ByteSet := ⟨union⟩

/-- The bytes outside the set. -/
def compl (s : ByteSet) : ByteSet :=
  ⟨~~~s.word0, ~~~s.word1, ~~~s.word2, ~~~s.word3⟩

/-- All bytes, ascending. -/
def allBytes : List UInt8 :=
  (List.range 256).map UInt8.ofNat

/-- The bytes from `lo` to `hi`, both included; none if `hi < lo`. -/
def range (lo hi : UInt8) : ByteSet :=
  ofList (allBytes.filter fun b => lo ≤ b && b ≤ hi)

/-- Every byte that does not occur in `l`. -/
def noneOf (l : List UInt8) : ByteSet :=
  (ofList l).compl

def isEmpty (s : ByteSet) : Bool :=
  s.word0 == 0 && s.word1 == 0 && s.word2 == 0 && s.word3 == 0

/-- The number of one bits of a word. -/
def bitCount (w : UInt64) : Nat :=
  (List.range 64).countP fun i => w.toBitVec.getLsbD i

def size (s : ByteSet) : Nat :=
  bitCount s.word0 + bitCount s.word1 + bitCount s.word2 + bitCount s.word3

/-- The members, ascending. -/
def toList (s : ByteSet) : List UInt8 :=
  allBytes.filter s.contains

end ByteSet

end ShellTokens
