/-!
# Blanks

The characters that separate words, and the words of a text.
-/

namespace TensorNest.Text

/-- The ranges of the blank characters, in increasing order. -/
def blanks : List (Nat × Nat) := [
  (0x9, 0xd), (0x1c, 0x20), (0x85, 0x85), (0xa0, 0xa0), (0x1680, 0x1680), (0x2000, 0x200a),
  (0x2028, 0x2029), (0x202f, 0x202f), (0x205f, 0x205f), (0x3000, 0x3000)]

/-- Whether a character separates words. -/
def isBlank (c : Char) : Bool :=
  blanks.any fun r => r.1 ≤ c.toNat && c.toNat ≤ r.2

/-- Puts a finished word, if it has any character, in front of the words after it. -/
def consWord (word : List Char) (words : List String) : List String :=
  if word.isEmpty then words else String.ofList word :: words

/-- The maximal sequences of characters that are not blank, `word` being the one read so far. -/
def wordsFrom (word : List Char) : List Char → List String
  | [] => consWord word.reverse []
  | c :: cs =>
    if isBlank c then consWord word.reverse (wordsFrom [] cs) else wordsFrom (c :: word) cs

/-- The words of a text, in order. -/
def words (s : String) : List String :=
  wordsFrom [] s.toList

/-- A text without the blanks at its two ends. -/
def trimBlanks (cs : List Char) : List Char :=
  ((cs.dropWhile isBlank).reverse.dropWhile isBlank).reverse

/-- A letter in lower case, for the letters whose lower case form is an ASCII letter. -/
def lowerChar (c : Char) : Char :=
  if 'A' ≤ c && c ≤ 'Z' then Char.ofNat (c.toNat + 32)
  else if c.toNat = 0x212a then 'k'
  else c

/-- A text in lower case, to be compared with ASCII words. -/
def lower (s : String) : String :=
  String.ofList (s.toList.map lowerChar)

end TensorNest.Text
