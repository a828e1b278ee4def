/-
# SafePlan.Proofs.Forest — disjoint sets are a forest

The parents of disjoint sets close no cycle: some numbering falls from every
element to its parent (`Ranked`). A numbering can be squeezed below the number
of elements (`exists_rank_lt`), so `n` steps reach the root from anywhere and
`root`, the `n`-fold parent, is what `find` returns (`find_root`).

Two changes happen to a forest. Linking an element to its grandparent keeps
every root (`root_link_above`); hanging one root below another moves exactly the
elements of one set to the other root (`root_unite`). From there the sets
built from a list of pairs are the classes of the equivalence that the pairs
generate (`root_ofPairs_eq_iff`).
-/
import SafePlan.DisjointSets
import Mathlib.Data.Fintype.Card
import Mathlib.Logic.Relation

set_option autoImplicit false

namespace SafePlan

/-- What related elements agree on, the elements of one class agree on. -/
theorem eq_of_eqvGen {α β : Type} {r : α → α → Prop} {f : α → β}
    (agree : ∀ x y, r x y → f x = f y) {x y : α} (joined : Relation.EqvGen r x y) : f x = f y :=
  congrArg (Quot.lift f agree) (Quot.eqvGen_sound joined)

namespace DisjointSets

variable {n : Nat} {sets : DisjointSets n} {rank : Fin n → Nat}

/-- The numbering falls from every element to its parent. -/
def Ranked (rank : Fin n → Nat) (sets : DisjointSets n) : Prop :=
  ∀ x, sets.parent x ≠ x → rank (sets.parent x) < rank x

/-- Walks along parents end. -/
def IsForest (sets : DisjointSets n) : Prop := ∃ rank, Ranked rank sets

/-- Where the walk from an element ends. -/
def root (sets : DisjointSets n) (x : Fin n) : Fin n := sets.parent^[n] x

/-! ## Walks -/

/-- Numbers below `n` suffice: an element gets the number of those below it. -/
theorem exists_rank_lt (forest : IsForest sets) :
    ∃ rank, Ranked rank sets ∧ ∀ x, rank x < n := by
  obtain ⟨rank, ranked⟩ := forest
  refine ⟨fun x => (Finset.univ.filter fun y => rank y < rank x).card, fun x moves => ?_,
    fun x => ?_⟩
  · have falls := ranked x moves
    refine Finset.card_lt_card (Finset.ssubset_iff_of_subset ?_ |>.2 ⟨sets.parent x, ?_, ?_⟩)
    · intro y below
      simp only [Finset.mem_filter, Finset.mem_univ, true_and] at below ⊢
      omega
    · simpa using falls
    · simp
  · have := Finset.card_lt_univ_of_notMem (s := Finset.univ.filter fun y => rank y < rank x)
      (x := x) (by simp)
    simpa using this

theorem parent_iterate (ranked : Ranked rank sets) {x : Fin n} {k : Nat} (enough : rank x ≤ k) :
    sets.parent (sets.parent^[k] x) = sets.parent^[k] x := by
  induction k generalizing x with
  | zero =>
    by_contra moves
    have := ranked x moves
    omega
  | succ k ih =>
    rw [Function.iterate_succ_apply]
    by_cases here : sets.parent x = x
    · rw [here, Function.iterate_fixed here, here]
    · have := ranked x here
      exact ih (by omega)

theorem parent_root (forest : IsForest sets) (x : Fin n) :
    sets.parent (sets.root x) = sets.root x := by
  obtain ⟨rank, ranked, bounded⟩ := exists_rank_lt forest
  exact parent_iterate ranked (bounded x).le

theorem root_of_parent_eq {r : Fin n} (isRoot : sets.parent r = r) : sets.root r = r :=
  Function.iterate_fixed isRoot n

theorem root_parent (forest : IsForest sets) (x : Fin n) :
    sets.root (sets.parent x) = sets.root x := by
  rw [root, ← Function.iterate_succ_apply, Function.iterate_succ_apply']
  exact parent_root forest x

/-- Roots are the only map that keeps still at roots and does not change on the
way to them. -/
theorem root_eq_of_invariant (forest : IsForest sets) {f : Fin n → Fin n}
    (constant : ∀ x, f (sets.parent x) = f x) (fixed : ∀ r, sets.parent r = r → f r = r)
    (x : Fin n) : sets.root x = f x := by
  have along : ∀ k, f (sets.parent^[k] x) = f x := by
    intro k
    induction k with
    | zero => rfl
    | succ k ih => rw [Function.iterate_succ_apply', constant, ih]
  calc sets.root x = f (sets.root x) := (fixed _ (parent_root forest x)).symm
    _ = f x := along n

/-! ## Shorter walks -/

/-- Skipping the parent keeps a numbering. -/
theorem ranked_link_above (ranked : Ranked rank sets) {x : Fin n} (moves : sets.parent x ≠ x) :
    rank (sets.parent (sets.parent x)) < rank x ∧
      Ranked rank (sets.link x (sets.parent (sets.parent x))) := by
  have first := ranked x moves
  have second : rank (sets.parent (sets.parent x)) ≤ rank (sets.parent x) := by
    by_cases here : sets.parent (sets.parent x) = sets.parent x
    · rw [here]
    · exact (ranked _ here).le
  refine ⟨by omega, fun y moves' => ?_⟩
  rw [parent_link] at moves' ⊢
  by_cases same : y = x
  · subst same
    rw [if_pos rfl]
    omega
  · rw [if_neg same] at moves' ⊢
    exact ranked y moves'

theorem root_link_above (ranked : Ranked rank sets) {x : Fin n} (moves : sets.parent x ≠ x) :
    (sets.link x (sets.parent (sets.parent x))).root = sets.root := by
  have forest : IsForest sets := ⟨rank, ranked⟩
  obtain ⟨lower, ranked'⟩ := ranked_link_above ranked moves
  funext y
  refine root_eq_of_invariant ⟨rank, ranked'⟩ (fun z => ?_) (fun r isRoot => ?_) y
  · rw [parent_link]
    by_cases same : z = x
    · rw [if_pos same, root_parent forest, root_parent forest, same]
    · rw [if_neg same, root_parent forest]
  · rw [parent_link] at isRoot
    by_cases same : r = x
    · rw [if_pos same] at isRoot
      rw [isRoot, same] at lower
      exact absurd lower (Nat.lt_irrefl _)
    · rw [if_neg same] at isRoot
      exact root_of_parent_eq isRoot

/-- A climb with steps enough ends at the root, and no element's root changes. -/
theorem climb_root {k : Nat} {x : Fin n} (ranked : Ranked rank sets) (enough : rank x ≤ k) :
    (climb k sets x).1 = sets.root x ∧ Ranked rank (climb k sets x).2 ∧
      (climb k sets x).2.root = sets.root := by
  induction k generalizing sets x with
  | zero =>
    have isRoot := parent_iterate ranked enough
    exact ⟨(root_of_parent_eq isRoot).symm, ranked, rfl⟩
  | succ k ih =>
    rw [climb]
    by_cases here : sets.parent x = x
    · rw [if_pos here]
      exact ⟨(root_of_parent_eq here).symm, ranked, rfl⟩
    · rw [if_neg here]
      have forest : IsForest sets := ⟨rank, ranked⟩
      obtain ⟨lower, ranked'⟩ := ranked_link_above ranked here
      have sameRoots := root_link_above ranked here
      obtain ⟨found, kept, roots⟩ := ih (x := sets.parent (sets.parent x)) ranked' (by omega)
      refine ⟨?_, kept, roots.trans sameRoots⟩
      rw [found, sameRoots, root_parent forest, root_parent forest]

/-- **Finding.** The root is found, and finding leaves every root as it was. -/
theorem find_root (forest : IsForest sets) (x : Fin n) :
    (sets.find x).1 = sets.root x ∧ IsForest (sets.find x).2 ∧
      (sets.find x).2.root = sets.root := by
  obtain ⟨rank, ranked, bounded⟩ := exists_rank_lt forest
  obtain ⟨found, kept, roots⟩ := climb_root ranked (bounded x).le
  exact ⟨found, ⟨rank, kept⟩, roots⟩

/-! ## Uniting -/

/-- The elements below the hung root rise above everything below the other. -/
theorem isForest_link (forest : IsForest sets) {x y : Fin n} (rootX : sets.parent x = x)
    (rootY : sets.parent y = y) (different : x ≠ y) : IsForest (sets.link y x) := by
  obtain ⟨rank, ranked⟩ := forest
  refine ⟨fun z => if sets.root z = y then rank z + rank x + 1 else rank z, fun z moves => ?_⟩
  rw [parent_link] at moves ⊢
  by_cases hung : z = y
  · subst hung
    simp only [if_pos, root_of_parent_eq rootX, root_of_parent_eq rootY, if_neg different]
    omega
  · rw [if_neg hung] at moves ⊢
    have falls := ranked z moves
    simp only [root_parent ⟨rank, ranked⟩]
    split <;> omega

theorem root_link (forest : IsForest sets) {x y : Fin n} (rootX : sets.parent x = x)
    (rootY : sets.parent y = y) (different : x ≠ y) (z : Fin n) :
    (sets.link y x).root z = if sets.root z = y then x else sets.root z := by
  refine root_eq_of_invariant (isForest_link forest rootX rootY different)
    (f := fun z => if sets.root z = y then x else sets.root z) (fun w => ?_) (fun r isRoot => ?_) z
  · rw [parent_link]
    by_cases hung : w = y
    · subst hung
      simp [root_of_parent_eq rootX, root_of_parent_eq rootY, different]
    · rw [if_neg hung, root_parent forest]
  · rw [parent_link] at isRoot
    by_cases hung : r = y
    · rw [if_pos hung] at isRoot
      exact absurd (isRoot.trans hung) different
    · rw [if_neg hung] at isRoot
      rw [root_of_parent_eq isRoot, if_neg hung]

/-- **Uniting.** The elements of one set get the root of the other; no other
root changes. -/
theorem root_unite (forest : IsForest sets) (x y : Fin n) :
    IsForest (sets.unite x y) ∧ ∀ z, (sets.unite x y).root z =
      if sets.root z = sets.root y then sets.root x else sets.root z := by
  obtain ⟨foundX, forestX, rootsX⟩ := find_root forest x
  obtain ⟨foundY, forestY, rootsY⟩ := find_root forestX y
  have sameRoots : ((sets.find x).2.find y).2.root = sets.root := rootsY.trans rootsX
  have foundY' : ((sets.find x).2.find y).1 = sets.root y := by rw [foundY, rootsX]
  have unfolded : sets.unite x y =
      if sets.root x = sets.root y then ((sets.find x).2.find y).2
      else ((sets.find x).2.find y).2.link (sets.root y) (sets.root x) := by
    simp only [unite, foundX, foundY']
  rw [unfolded]
  by_cases together : sets.root x = sets.root y
  · rw [if_pos together]
    refine ⟨forestY, fun z => ?_⟩
    rw [sameRoots]
    split
    · rename_i inY
      rw [inY, together]
    · rfl
  · rw [if_neg together]
    have isRoot : ∀ z, ((sets.find x).2.find y).2.parent (sets.root z) = sets.root z := by
      intro z
      have := parent_root forestY z
      rwa [sameRoots] at this
    refine ⟨isForest_link forestY (isRoot x) (isRoot y) together, fun z => ?_⟩
    rw [root_link forestY (isRoot x) (isRoot y) together, sameRoots]

/-! ## Sets from pairs -/

/-- Two elements are joined when a chain of pairs leads from one to the other. -/
def Joined (pairs : List (Fin n × Fin n)) : Fin n → Fin n → Prop :=
  Relation.EqvGen fun x y => (x, y) ∈ pairs

theorem Joined.mono {pairs more : List (Fin n × Fin n)} (subset : pairs ⊆ more) {x y : Fin n}
    (joined : Joined pairs x y) : Joined more x y :=
  Relation.EqvGen.mono (fun _ _ listed => subset listed) x y joined

/-- The sets are the classes of the elements that the pairs join. -/
def Classes (sets : DisjointSets n) (pairs : List (Fin n × Fin n)) : Prop :=
  IsForest sets ∧ ∀ x y, sets.root x = sets.root y ↔ Joined pairs x y

theorem classes_singletons : Classes (singletons n) [] := by
  have roots : ∀ x, (singletons n).root x = x := fun x => root_of_parent_eq (parent_singletons x)
  refine ⟨⟨fun _ => 0, fun x moves => absurd (parent_singletons x) moves⟩, fun x y => ?_⟩
  rw [roots, roots]
  constructor
  · rintro rfl
    exact .refl x
  · intro joined
    exact eq_of_eqvGen (f := id) (fun _ _ listed => absurd listed List.not_mem_nil) joined

theorem classes_unite {pairs : List (Fin n × Fin n)} (classes : Classes sets pairs)
    (a b : Fin n) : Classes (sets.unite a b) (pairs ++ [(a, b)]) := by
  obtain ⟨forest, same⟩ := classes
  obtain ⟨forest', roots⟩ := root_unite forest a b
  have older : ∀ {x y}, sets.root x = sets.root y → Joined (pairs ++ [(a, b)]) x y := fun equal =>
    ((same _ _).1 equal).mono (List.subset_append_left ..)
  have newest : Joined (pairs ++ [(a, b)]) a b := .rel a b (by simp)
  refine ⟨forest', fun x y => ⟨fun equal => ?_, fun joined => ?_⟩⟩
  · rw [roots, roots] at equal
    -- each of the two is in the set of `b`, and so joined to `a`, or keeps its root
    by_cases inX : sets.root x = sets.root b <;> by_cases inY : sets.root y = sets.root b
    · exact older (inX.trans inY.symm)
    · rw [if_pos inX, if_neg inY] at equal
      exact .trans _ _ _ (older inX) (.trans _ _ _ (.symm _ _ newest) (older equal))
    · rw [if_neg inX, if_pos inY] at equal
      exact .trans _ _ _ (older equal) (.trans _ _ _ newest (older inY.symm))
    · rw [if_neg inX, if_neg inY] at equal
      exact older equal
  · refine eq_of_eqvGen (fun x y listed => ?_) joined
    rw [roots, roots]
    rcases List.mem_append.1 listed with before | last
    · rw [(same x y).2 (.rel x y before)]
    · obtain ⟨rfl, rfl⟩ : x = a ∧ y = b := by simpa using last
      simp

/-- A pair of one element joins nothing. -/
theorem classes_concat_self {pairs : List (Fin n × Fin n)} (classes : Classes sets pairs)
    (a : Fin n) : Classes sets (pairs ++ [(a, a)]) := by
  refine ⟨classes.1, fun x y => (classes.2 x y).trans ⟨fun joined => ?_, fun joined => ?_⟩⟩
  · exact joined.mono (List.subset_append_left ..)
  · rw [← classes.2]
    refine eq_of_eqvGen (fun x y listed => ?_) joined
    rcases List.mem_append.1 listed with before | last
    · exact (classes.2 x y).2 (.rel x y before)
    · obtain ⟨rfl, rfl⟩ : x = a ∧ y = a := by simpa using last
      rfl

theorem classes_ofPairs (pairs : List (Fin n × Fin n)) : Classes (ofPairs pairs) pairs := by
  have further : ∀ (rest before : List (Fin n × Fin n)) (sets : DisjointSets n),
      Classes sets before →
        Classes (rest.foldl (fun sets pair => sets.unite pair.1 pair.2) sets) (before ++ rest) := by
    intro rest
    induction rest with
    | nil => intro before sets classes; simpa using classes
    | cons pair rest ih =>
      intro before sets classes
      simpa using ih _ _ (classes_unite classes pair.1 pair.2)
  exact further pairs [] (singletons n) classes_singletons

/-- **The sets of pairs.** Two elements have one root exactly when the pairs
join them. -/
theorem root_ofPairs_eq_iff (pairs : List (Fin n × Fin n)) (x y : Fin n) :
    (ofPairs pairs).root x = (ofPairs pairs).root y ↔ Joined pairs x y :=
  (classes_ofPairs pairs).2 x y

theorem find_ofPairs_eq_iff (pairs : List (Fin n × Fin n)) (x y : Fin n) :
    ((ofPairs pairs).find x).1 = ((ofPairs pairs).find y).1 ↔ Joined pairs x y := by
  have forest := (classes_ofPairs pairs).1
  rw [(find_root forest x).1, (find_root forest y).1]
  exact root_ofPairs_eq_iff pairs x y

end DisjointSets

end SafePlan
