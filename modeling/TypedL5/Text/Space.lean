/-!
Classes of characters given as blocks of neighbouring code points, and what they divide a text
into: words, which white space separates, and lines. A line may end with a line feed, a
carriage return, or both; reading makes them all line feeds.
-/
namespace TypedL5.Text

/-- Whether a character lies in one of the blocks, each given by its first and last code
point. -/
def inBlocks (blocks : List (Nat × Nat)) (c : Char) : Bool :=
  blocks.any fun (first, last) => first ≤ c.toNat && c.toNat ≤ last

/-- The blocks of white space, each by its first and last code point. -/
def spaceBlocks : List (Nat × Nat) :=
  [(0x09, 0x0D), (0x1C, 0x20), (0x85, 0x85), (0xA0, 0xA0), (0x1680, 0x1680), (0x2000, 0x200A),
    (0x2028, 0x2029), (0x202F, 0x202F), (0x205F, 0x205F), (0x3000, 0x3000)]

def isSpace (c : Char) : Bool :=
  inBlocks spaceBlocks c

/-- Whether a text holds nothing but white space. -/
def isBlank (text : String) : Bool :=
  text.toList.all isSpace

/-- A finished word, given latest letter first. The empty word is none. -/
def finishWord (letters : List Char) : List String :=
  if letters.isEmpty then [] else [String.ofList letters.reverse]

/-- The words of a text whose first word has begun with `letters`, latest first. -/
def wordsFrom (letters : List Char) : List Char → List String
  | [] => finishWord letters
  | c :: cs =>
    if isSpace c then finishWord letters ++ wordsFrom [] cs else wordsFrom (c :: letters) cs

/-- The words of a text: its maximal runs without white space. -/
def words (text : String) : List String :=
  wordsFrom [] text.toList

/-- Makes a line feed of every line end. -/
def unifyNewlines : List Char → List Char
  | [] => []
  | '\r' :: '\n' :: cs => '\n' :: unifyNewlines cs
  | c :: cs => (if c = '\r' then '\n' else c) :: unifyNewlines cs

/-- The lines of a text in which `line` has begun, latest character first. A last line without
an end counts if it is not empty. -/
def linesFrom (line : List Char) : List Char → List String
  | [] => if line.isEmpty then [] else [String.ofList line.reverse]
  | c :: cs =>
    if c = '\n' then String.ofList line.reverse :: linesFrom [] cs
      else linesFrom (c :: line) cs

/-- The lines of a text, without their ends. -/
def lines (text : String) : List String :=
  linesFrom [] (unifyNewlines text.toList)

/-- The text that bytes encode, if they encode one, with line feeds only. -/
def decode? (bytes : ByteArray) : Option String :=
  (String.fromUTF8? bytes).map fun text => String.ofList (unifyNewlines text.toList)

end TypedL5.Text
