/-!
Names like a given one, for a reader who may have mistyped it.

Two names are alike if few edits turn one into the other. The least numbers of edits between
the prefixes of two texts make a table, which is filled row by row. Only the row before is
kept.
-/
namespace TypedL5.Name

/-- Adds a cell to the row of the character `c`, in the column of the character `d` that `j`
others precede. -/
def addCell (c : Char) (previous current : Array Nat) : Char × Nat → Array Nat
  | (d, j) =>
    let insertions := previous.getD (j + 1) 0 + 1
    let deletions := current.getD j 0 + 1
    let substitutions := previous.getD j 0 + if c = d then 0 else 1
    current.push (min (min insertions deletions) substitutions)

/-- The row of the character `c` that `i` others precede, filled from left to right. -/
def nextRow (ds : List Char) (previous : Array Nat) : Char × Nat → Array Nat
  | (c, i) => ds.zipIdx.foldl (addCell c previous) #[i + 1]

/-- The last row of the table, filled from the first one downwards. -/
def lastRow (cs ds : List Char) : Array Nat :=
  cs.zipIdx.foldl (nextRow ds) (Array.range (ds.length + 1))

/-- The distance of a text from one that is no longer. -/
def distanceFromShorter (cs ds : List Char) : Nat :=
  if ds.isEmpty then cs.length else (lastRow cs ds).back?.getD 0

/-- The least number of edits between two lists of characters. The rows are as long as the
shorter one. -/
def editDistance (cs ds : List Char) : Nat :=
  if cs.length < ds.length then distanceFromShorter ds cs else distanceFromShorter cs ds

/-- The least number of characters to insert, delete or replace that turns one text into
another. -/
def distance (a b : String) : Nat :=
  editDistance a.toList b.toList

/-- A name that may be meant, with its distance from the one that is written. -/
abbrev Candidate := Nat × String

/-- Notes another name as a candidate if it is at most two edits away. -/
def consider (name : String) (found : List Candidate) (other : String) : List Candidate :=
  if other = name then found else
    let d := distance name other
    if d ≤ 2 then found ++ [(d, other)] else found

/-- Puts a candidate before the first one that is no nearer. -/
def insertNear (p : Candidate) : List Candidate → List Candidate
  | [] => [p]
  | q :: l => if p.1 ≤ q.1 then p :: q :: l else q :: insertNear p l

/-- Candidates with the nearer ones first. Those at one distance keep their order. -/
def sortByDistance (l : List Candidate) : List Candidate :=
  l.foldr insertNear []

/-- All candidates among some names, the nearer ones first. -/
def ranked (name : String) (names : List String) : List Candidate :=
  sortByDistance (names.foldl (consider name) [])

/-- As many of the items as the limit says. A negative limit counts the items to leave out at
the end. -/
def limited {α : Type} (limit : Int) (items : List α) : List α :=
  items.take (if 0 ≤ limit then limit else items.length + limit).toNat

/-- Similar names, no more than the limit. -/
def similar (name : String) (names : List String) (limit : Int := 3) : List String :=
  (limited limit (ranked name names)).map Prod.snd

end TypedL5.Name
