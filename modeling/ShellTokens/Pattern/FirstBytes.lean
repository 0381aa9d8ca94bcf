import ShellTokens.Pattern.Basic

/-!
# How matches begin

A look at the pattern alone tells whether it can match nothing, whether it can match at all, and
which bytes a match can begin with. A rule whose first bytes do not contain the next byte need not
be tried.
-/

namespace ShellTokens.Pattern

mutual

/-- Whether the pattern can match the empty word. -/
def nullable : Pattern → Bool
  | literal bytes => bytes.isEmpty
  | oneOf _ => false
  | run r => r.min == 0
  | seq parts => nullableAll parts
  | alt choices => nullableAny choices
  | times inner min _ => min == 0 || nullable inner

def nullableAll : List Pattern → Bool
  | [] => true
  | p :: parts => nullable p && nullableAll parts

def nullableAny : List Pattern → Bool
  | [] => false
  | p :: choices => nullable p || nullableAny choices

end

mutual

/-- Whether the pattern matches some word, empty or not. -/
def viable : Pattern → Bool
  | literal _ => true
  | oneOf set => !set.isEmpty
  | run r => r.min == 0 || !r.set.isEmpty
  | seq parts => viableAll parts
  | alt choices => viableAny choices
  | times inner min _ => min == 0 || viable inner

def viableAll : List Pattern → Bool
  | [] => true
  | p :: parts => viable p && viableAll parts

def viableAny : List Pattern → Bool
  | [] => false
  | p :: choices => viable p || viableAny choices

end

mutual

/-- The bytes with which a match that is not empty can begin. Parts that cannot match contribute
nothing. -/
def firstBytes (p : Pattern) : ByteSet :=
  if p.viable then
    match p with
    | literal [] => ∅
    | literal (b :: _) => (∅ : ByteSet).insert b
    | oneOf set => set
    | run r => r.set
    | seq parts => firstBytesSeq parts
    | alt choices => firstBytesAlt choices
    | times _ _ (some 0) => ∅
    | times inner _ _ => firstBytes inner
  else ∅

/-- The first bytes of the parts up to the first one that cannot be empty. -/
def firstBytesSeq : List Pattern → ByteSet
  | [] => ∅
  | p :: parts => if p.nullable then firstBytes p ∪ firstBytesSeq parts else firstBytes p

def firstBytesAlt : List Pattern → ByteSet
  | [] => ∅
  | p :: choices => firstBytes p ∪ firstBytesAlt choices

end

end ShellTokens.Pattern
