/-!
# Plan trees

The levels of a selection have to be answered together.  A plan tree spells the combinations out:
siblings are alternatives for one level, and the children of a node are the alternatives for the
next level.  `Plan.nest` builds the tree of a list of levels, `Plan.paths` reads its combinations
off, and `Plan.siblingSets` recovers the levels.
-/

namespace Keyspace

/-- One alternative for a level, by the number of its candidate, and the alternatives for the level
after it. -/
structure Plan where
  candidate : Nat
  children : List Plan
deriving Inhabited

namespace Plan

/-- The tree of a list of levels: every alternative of a level has the whole tree of the later
levels below it. -/
def nest : List (List Nat) → List Plan
  | [] => []
  | ids :: rest =>
    let children := nest rest
    ids.map fun id => ⟨id, children⟩

/-! ### What a tree mentions -/

mutual

/-- The candidates of a node and of the nodes below it. -/
def ids : Plan → List Nat
  | ⟨candidate, children⟩ => candidate :: idsOf children

/-- The candidates of several nodes and of the nodes below them. -/
def idsOf : List Plan → List Nat
  | [] => []
  | plan :: rest => plan.ids ++ idsOf rest

end

mutual

/-- The ways from a node down to a leaf. -/
def paths : Plan → List (List Nat)
  | ⟨candidate, []⟩ => [[candidate]]
  | ⟨candidate, children⟩ => (pathsOf children).map (candidate :: ·)

/-- The ways down from several nodes, from left to right. -/
def pathsOf : List Plan → List (List Nat)
  | [] => []
  | plan :: rest => plan.paths ++ pathsOf rest

end

/-! ### Siblings -/

/-- The candidates of siblings in ascending order. -/
def siblings (plans : List Plan) : List Nat := (plans.map Plan.candidate).mergeSort

mutual

/-- The sibling lists strictly below a node. -/
def siblingsBelow : Plan → List (List Nat)
  | ⟨_, []⟩ => []
  | ⟨_, children⟩ => siblings children :: siblingsBelowAll children

/-- The sibling lists strictly below several nodes. -/
def siblingsBelowAll : List Plan → List (List Nat)
  | [] => []
  | plan :: rest => plan.siblingsBelow ++ siblingsBelowAll rest

end

/-- Every sibling list of a tree from the top down, repeated as often as it occurs. -/
def siblingLists (plans : List Plan) : List (List Nat) :=
  if plans.isEmpty then [] else siblings plans :: siblingsBelowAll plans

end Plan

end Keyspace
