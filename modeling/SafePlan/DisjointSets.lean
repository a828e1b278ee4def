/-
# SafePlan.DisjointSets — a partition that only gets coarser

The elements `0 … n-1` in disjoint sets, kept as a forest: each element has a
parent, a root is its own parent, and two elements are in one set when they
have one root. `find` walks to the root and links each element it passes to
its grandparent, so that later walks are shorter; `unite` hangs one root below
another. Neither ever closes a cycle, and then a walk passes no element twice:
`n` steps reach the root from anywhere.
-/
set_option autoImplicit false

namespace SafePlan

structure DisjointSets (n : Nat) where
  parents : Vector (Fin n) n

namespace DisjointSets

variable {n : Nat}

/-- Every element alone in its set. -/
def singletons (n : Nat) : DisjointSets n := ⟨Vector.ofFn id⟩

def parent (sets : DisjointSets n) (x : Fin n) : Fin n := sets.parents[x]

def link (sets : DisjointSets n) (x parent : Fin n) : DisjointSets n :=
  ⟨sets.parents.set x parent⟩

/-- At most so many steps towards the root, each over a grandparent. -/
def climb : Nat → DisjointSets n → Fin n → Fin n × DisjointSets n
  | 0, sets, x => (x, sets)
  | steps + 1, sets, x =>
    if sets.parent x = x then (x, sets)
    else
      let above := sets.parent (sets.parent x)
      climb steps (sets.link x above) above

/-- The root of an element, and the sets with a shorter way to it. -/
def find (sets : DisjointSets n) (x : Fin n) : Fin n × DisjointSets n :=
  climb n sets x

/-- Make one set of the sets of two elements. -/
def unite (sets : DisjointSets n) (x y : Fin n) : DisjointSets n :=
  let (x, sets) := sets.find x
  let (y, sets) := sets.find y
  if x = y then sets else sets.link y x

/-- The sets in which the two elements of each pair are together. -/
def ofPairs (pairs : List (Fin n × Fin n)) : DisjointSets n :=
  pairs.foldl (fun sets (x, y) => sets.unite x y) (singletons n)

@[simp] theorem parent_singletons (x : Fin n) : (singletons n).parent x = x := by
  simp [singletons, parent]

theorem parent_link (sets : DisjointSets n) (x y p : Fin n) :
    (sets.link x p).parent y = if y = x then p else sets.parent y := by
  simp only [parent, link, Fin.getElem_fin, Vector.getElem_set, Fin.ext_iff]
  split <;> split <;> simp_all

end DisjointSets

end SafePlan
