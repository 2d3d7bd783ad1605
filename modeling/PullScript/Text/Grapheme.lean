import PullScript.Text.GraphemeClass

namespace PullScript.Grapheme

/-- How far a conjunct has come: a consonant, and after it a linker. -/
inductive Conjunct where
  | absent
  | started
  | linked
deriving DecidableEq, Repr

/-- What the rules need to know about the characters of a cluster read so far. -/
structure Trail where
  /-- The class of the last character. -/
  last : Class
  /-- The cluster ends with a pictograph and marks that extend it. -/
  pictograph : Bool
  /-- The cluster ends with a pictograph, marks that extend it and a joiner. -/
  joined : Bool
  /-- The cluster ends with an odd number of regional indicators. -/
  halfFlag : Bool
  conjunct : Conjunct
deriving DecidableEq, Repr

/-- Marks that extend the character before them, joiners apart. -/
def Class.isMark : Class → Bool
  | .extend | .linker | .nonJoiner => true
  | _ => false

/-- Characters that are always a cluster of their own, but for CR LF. -/
def Class.isAlone : Class → Bool
  | .carriageReturn | .lineFeed | .control => true
  | _ => false

/-- Hangul jamo and syllables that make up one syllable block. -/
def Class.joinsSyllable : Class → Class → Bool
  | .leading, .leading | .leading, .vowel => true
  | .leading, .openSyllable | .leading, .closedSyllable => true
  | .openSyllable, .vowel | .openSyllable, .trailing | .vowel, .vowel | .vowel, .trailing => true
  | .closedSyllable, .trailing | .trailing, .trailing => true
  | _, _ => false

/-- Whether a character of class `next` belongs to the cluster that `trail` describes. -/
def Trail.accepts (trail : Trail) (next : Class) : Bool :=
  if trail.last.isAlone || next.isAlone then
    trail.last == .carriageReturn && next == .lineFeed
  else
    trail.last.joinsSyllable next || next.isMark || next == .joiner || next == .spacingMark ||
      trail.last == .prepended ||
      (next == .consonant && trail.conjunct == .linked) ||
      (next == .pictograph && trail.joined) ||
      (next == .regional && trail.halfFlag)

def Conjunct.extend (conjunct : Conjunct) (next : Class) : Conjunct :=
  match next with
  | .consonant => .started
  | .linker => if conjunct == .absent then .absent else .linked
  | .extend | .joiner => conjunct
  | _ => .absent

def Trail.extend (trail : Trail) (next : Class) : Trail where
  last := next
  pictograph := next == .pictograph || (trail.pictograph && next.isMark)
  joined := next == .joiner && trail.pictograph
  halfFlag := next == .regional && !trail.halfFlag
  conjunct := trail.conjunct.extend next

/-- The trail of a cluster that starts with a character of class `first`. -/
def Trail.start (first : Class) : Trail where
  last := first
  pictograph := first == .pictograph
  joined := false
  halfFlag := first == .regional
  conjunct := Conjunct.absent.extend first

end PullScript.Grapheme
