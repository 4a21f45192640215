import Keyspace.Text.Segments

/-!
# Places in a file system

A path is walked part by part, beginning at the working directory or at the root.  `Place` is what
is known about the point that a walk has reached: the names on the way down, as long as the walk
does not go down again after having left the working directory upwards.
-/

namespace Keyspace

/-- Where a walk over directories has got to. -/
inductive Place where
  /-- Below the working directory, by the names on the way down. -/
  | below (names : List String)
  /-- In one of the directories above the working directory. -/
  | above
  /-- By the names on the way down from the root directory. -/
  | fromRoot (names : List String)
  /-- Out of sight. -/
  | hidden
deriving DecidableEq, Repr, Inhabited

namespace Place

/-- Down to a name. -/
def down (name : String) : Place → Place
  | below names => below (names ++ [name])
  | fromRoot names => fromRoot (names ++ [name])
  | above | hidden => hidden

/-- Up to the parent; the root directory is its own parent. -/
def up : Place → Place
  | below [] => above
  | below names => below names.dropLast
  | fromRoot names => fromRoot names.dropLast
  | above => above
  | hidden => hidden

/-- One part of a path: nothing or a dot stays, two dots go up, any other name goes down. -/
def step (place : Place) (part : String) : Place :=
  if part == "" || part == "." then place
  else if part == ".." then place.up
  else place.down part

/-- Where a path starts. -/
def start (path : String) : Place := if path.startsWith "/" then fromRoot [] else below []

/-- The parts of a path between its slashes. -/
def parts (path : String) : List String := (Text.splitAt '/' path.toList).map String.ofList

/-- Where a path leads. -/
def ofPath (path : String) : Place := (parts path).foldl step (start path)

/-- The places that a walk passes before its last part. -/
def passedFrom (place : Place) : List String → List Place
  | [] | [_] => [place]
  | part :: rest => place :: passedFrom (place.step part) rest

/-- The places that a path passes before its last part. -/
def passed (path : String) : List Place := passedFrom (start path) (parts path)

end Place

end Keyspace
