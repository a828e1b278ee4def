/-
# SafePlan.Proofs.Scoping — the traversals agree on what is free

Three traversals of a formula follow the scope of a name: `freeVars` collects the
names that are free, `freePositions` lists where one of them is free, and
`substitute` puts a constant there. Each stops in its own way at a quantifier that
binds the name again, and they come to the same occurrences
(`Formula.traversals_agree`). Collecting with a stack of the names bound so far,
or listing with a flag that says whether the name is still visible, is the same
again (`occurrencesUnder_eq`, `positionsWhile_eq`).

Substitution is described without its recursion: it keeps the outline of the
formula, and in each atom it changes the listed positions and no other. Nothing
else fits this description (`eq_substitute_iff`).
-/
import SafePlan.Proofs.Acceptance

set_option autoImplicit false

namespace SafePlan

/-! ## Positions in atoms -/

namespace Atom

variable {a : Atom} {x c : Name}

/-- The atom with a constant at the positions. -/
def putAt (c : Name) (positions : List Nat) (a : Atom) : Atom :=
  ⟨a.relation, a.terms.mapIdx fun position term =>
    if position ∈ positions then .const c else term⟩

theorem putAt_nil (c : Name) (a : Atom) : a.putAt c [] = a := by
  rw [putAt, Atom.mk.injEq]
  exact ⟨rfl, List.ext_getElem (by simp) (by simp)⟩

theorem putAt_positionsOf (x c : Name) (a : Atom) :
    a.putAt c (a.positionsOf x) = a.substitute x c := by
  rw [putAt, substitute, Atom.mk.injEq]
  refine ⟨rfl, List.ext_getElem (by simp) fun position inside _ => ?_⟩
  have within : position < a.terms.length := by simpa using inside
  simp only [List.getElem_mapIdx, List.getElem_map, mem_positionsOf,
    List.getElem?_eq_getElem within, Option.some.injEq]
  cases a.terms[position] with
  | const name => rfl
  | var name => by_cases here : name = x <;> simp [Term.substitute, here]

theorem positionsOf_ne_nil_iff : a.positionsOf x ≠ [] ↔ x ∈ a.vars := by
  refine ⟨fun stands => ?_, positionsOf_ne_nil⟩
  obtain ⟨position, listed⟩ := List.exists_mem_of_ne_nil _ stands
  exact List.mem_filterMap.2 ⟨.var x, List.mem_of_getElem? (mem_positionsOf.1 listed), rfl⟩

end Atom

namespace Formula

variable {f g : Formula} {x c : Name} {bound : List Name} {visible : Bool}

/-! ## A stack and a flag -/

/-- The free occurrences, collected with the names bound around the formula. -/
def occurrencesUnder (bound : List Name) : Formula → List Name
  | .truth => []
  | .atom a => a.vars.filter (· ∉ bound)
  | .not f => f.occurrencesUnder bound
  | .and f g => f.occurrencesUnder bound ++ g.occurrencesUnder bound
  | .or f g => f.occurrencesUnder bound ++ g.occurrencesUnder bound
  | .exist y f => f.occurrencesUnder (y :: bound)
  | .forAll y f => f.occurrencesUnder (y :: bound)

/-- The atoms with positions of a name, as long as it is visible. -/
def positionsWhile (x : Name) (visible : Bool) : Formula → List (Atom × List Nat)
  | .truth => []
  | .atom a => [(a, if visible then a.positionsOf x else [])]
  | .not f => f.positionsWhile x visible
  | .and f g => f.positionsWhile x visible ++ g.positionsWhile x visible
  | .or f g => f.positionsWhile x visible ++ g.positionsWhile x visible
  | .exist y f => f.positionsWhile x (visible && y ≠ x)
  | .forAll y f => f.positionsWhile x (visible && y ≠ x)

theorem occurrencesUnder_eq (bound : List Name) (f : Formula) :
    f.occurrencesUnder bound = f.freeOccurrences.filter (· ∉ bound) := by
  induction f generalizing bound with
  | truth => rfl
  | atom a => rfl
  | not f ih => exact ih bound
  | and f g ihf ihg | or f g ihf ihg =>
    rw [occurrencesUnder, ihf, ihg, freeOccurrences, List.filter_append]
  | exist y f ih | forAll y f ih =>
    rw [occurrencesUnder, ih, freeOccurrences, List.filter_filter]
    refine List.filter_congr fun z _ => ?_
    simp [Bool.and_comm]

theorem freeVars_eq_occurrencesUnder (f : Formula) :
    f.freeVars = NameSet.ofList (f.occurrencesUnder []) := by
  simp [freeVars, occurrencesUnder_eq]

theorem positionsWhile_eq (x : Name) (visible : Bool) (f : Formula) :
    f.positionsWhile x visible =
      if visible then f.freePositions x else f.atoms.map fun a => (a, []) := by
  induction f generalizing visible with
  | truth => cases visible <;> rfl
  | atom a => cases visible <;> rfl
  | not f ih => exact ih visible
  | and f g ihf ihg | or f g ihf ihg =>
    rw [positionsWhile, ihf, ihg]
    cases visible
    · exact (List.map_append ..).symm
    · rfl
  | exist y f ih | forAll y f ih =>
    rw [positionsWhile, ih]
    cases visible
    · rfl
    · by_cases again : y = x <;> simp [freePositions, again]

/-! ## What the positions say -/

theorem map_fst_freePositions (x : Name) (f : Formula) :
    (f.freePositions x).map Prod.fst = f.atoms := by
  induction f with
  | truth => rfl
  | atom a => rfl
  | not f ih => exact ih
  | and f g ihf ihg | or f g ihf ihg => rw [freePositions, List.map_append, ihf, ihg, atoms]
  | exist y f ih | forAll y f ih =>
    rw [freePositions]
    split
    · simp [atoms, Function.comp_def]
    · exact ih

/-- An atom's positions of the name are all free, or all hidden. -/
theorem freePositions_cases {place : Atom × List Nat} (listed : place ∈ f.freePositions x) :
    place.2 = [] ∨ place.2 = place.1.positionsOf x := by
  induction f with
  | truth => cases listed
  | atom a =>
    obtain rfl := List.mem_singleton.1 listed
    exact .inr rfl
  | not f ih => exact ih listed
  | and f g ihf ihg | or f g ihf ihg => exact (List.mem_append.1 listed).elim ihf ihg
  | exist y f ih | forAll y f ih =>
    rw [freePositions] at listed
    split at listed
    · obtain ⟨a, -, rfl⟩ := List.mem_map.1 listed
      exact .inl rfl
    · exact ih listed

theorem getElem?_of_mem_freePositions {place : Atom × List Nat}
    (listed : place ∈ f.freePositions x) {position : Nat} (stands : position ∈ place.2) :
    place.1.terms[position]? = some (.var x) := by
  rcases freePositions_cases listed with nowhere | all
  · rw [nowhere] at stands
    cases stands
  · rw [all] at stands
    exact Atom.mem_positionsOf.1 stands

/-- A name is free exactly when it has a free position. -/
theorem mem_freeOccurrences_iff :
    x ∈ f.freeOccurrences ↔ ∃ place ∈ f.freePositions x, place.2 ≠ [] := by
  induction f with
  | truth => simp [freeOccurrences, freePositions]
  | atom a => simp [freeOccurrences, freePositions, Atom.positionsOf_ne_nil_iff]
  | not f ih => exact ih
  | and f g ihf ihg | or f g ihf ihg =>
    rw [freeOccurrences, List.mem_append, ihf, ihg]
    simp only [freePositions, List.mem_append, or_and_right, exists_or]
  | exist y f ih | forAll y f ih =>
    rw [freeOccurrences, List.mem_filter, ih, freePositions]
    by_cases again : y = x
    · simp [again]
    · simp [again, Ne.symm again]

theorem mem_freeVars_iff : x ∈ f.freeVars ↔ ∃ place ∈ f.freePositions x, place.2 ≠ [] := by
  rw [freeVars, NameSet.mem_ofList, mem_freeOccurrences_iff]

/-! ## What substitution does -/

/-- The connectives and quantifiers, around blanks in the place of the atoms. -/
def outline : Formula → Formula
  | .truth => .truth
  | .atom _ => .atom ⟨"", []⟩
  | .not f => .not f.outline
  | .and f g => .and f.outline g.outline
  | .or f g => .or f.outline g.outline
  | .exist x f => .exist x f.outline
  | .forAll x f => .forAll x f.outline

theorem length_atoms_outline (f : Formula) : f.outline.atoms.length = f.atoms.length := by
  induction f <;> simp_all [outline, atoms]

/-- A formula is its outline filled with its atoms. -/
theorem eq_of_outline_eq (sameOutline : f.outline = g.outline) (sameAtoms : f.atoms = g.atoms) :
    f = g := by
  have sides : ∀ {f f' g g' : Formula}, f.outline = g.outline →
      f.atoms ++ f'.atoms = g.atoms ++ g'.atoms → f.atoms = g.atoms ∧ f'.atoms = g'.atoms := by
    intro f f' g g' same all
    refine List.append_inj all ?_
    rw [← length_atoms_outline, same, length_atoms_outline]
  induction f generalizing g with
  | truth => cases g <;> simp_all [outline]
  | atom a => cases g <;> simp_all [outline, atoms]
  | not f ih =>
    cases g <;> simp only [outline, Formula.not.injEq, reduceCtorEq] at sameOutline
    rw [ih sameOutline sameAtoms]
  | and f f' ih ih' =>
    cases g <;> simp only [outline, Formula.and.injEq, reduceCtorEq] at sameOutline
    obtain ⟨left, right⟩ := sides sameOutline.1 sameAtoms
    rw [ih sameOutline.1 left, ih' sameOutline.2 right]
  | or f f' ih ih' =>
    cases g <;> simp only [outline, Formula.or.injEq, reduceCtorEq] at sameOutline
    obtain ⟨left, right⟩ := sides sameOutline.1 sameAtoms
    rw [ih sameOutline.1 left, ih' sameOutline.2 right]
  | exist y f ih =>
    cases g <;> simp only [outline, Formula.exist.injEq, reduceCtorEq] at sameOutline
    rw [sameOutline.1, ih sameOutline.2 sameAtoms]
  | forAll y f ih =>
    cases g <;> simp only [outline, Formula.forAll.injEq, reduceCtorEq] at sameOutline
    rw [sameOutline.1, ih sameOutline.2 sameAtoms]

theorem outline_substitute (x c : Name) (f : Formula) :
    (f.substitute x c).outline = f.outline := by
  fun_induction substitute x c f <;> simp_all [outline]

theorem atoms_substitute_eq_putAt (x c : Name) (f : Formula) :
    (f.substitute x c).atoms = (f.freePositions x).map fun place => place.1.putAt c place.2 := by
  rw [atoms_substitute]
  refine List.map_congr_left fun place listed => ?_
  split <;> rename_i nowhere
  · rw [nowhere, Atom.putAt_nil]
  · rw [(freePositions_cases listed).resolve_left nowhere, Atom.putAt_positionsOf]

/-- **Substitution changes the free positions and nothing else.** -/
theorem eq_substitute_iff :
    g = f.substitute x c ↔ g.outline = f.outline ∧
      g.atoms = (f.freePositions x).map fun place => place.1.putAt c place.2 := by
  constructor
  · rintro rfl
    exact ⟨outline_substitute x c f, atoms_substitute_eq_putAt x c f⟩
  · rintro ⟨sameOutline, filled⟩
    exact eq_of_outline_eq (sameOutline.trans (outline_substitute x c f).symm)
      (filled.trans (atoms_substitute_eq_putAt x c f).symm)

/-- Without free positions there is nothing to change. -/
theorem substitute_of_not_mem_freeVars (absent : x ∉ f.freeVars) (c : Name) :
    f.substitute x c = f := by
  refine (eq_substitute_iff.2 ⟨rfl, ?_⟩).symm
  rw [← map_fst_freePositions x f]
  refine List.map_congr_left fun place listed => ?_
  have nowhere : place.2 = [] := by
    by_contra stands
    exact absent (mem_freeVars_iff.2 ⟨place, listed, stands⟩)
  rw [nowhere, Atom.putAt_nil]

theorem freeVars_substitute (x c : Name) (f : Formula) :
    (f.substitute x c).freeVars = f.freeVars.filter (· ≠ x) := by
  refine NameSet.eq_of_mem_iff (NameSet.increasing_ofList _)
    ((NameSet.increasing_ofList _).filter _) fun y => ?_
  rw [freeVars, freeOccurrences_substitute, List.mem_filter, freeVars, NameSet.mem_ofList,
    NameSet.mem_ofList, List.mem_filter]

theorem map_snd_freePositions_substitute {y : Name} (different : y ≠ x) (c : Name) (f : Formula) :
    ((f.substitute x c).freePositions y).map Prod.snd = (f.freePositions y).map Prod.snd := by
  have same := congrArg (List.map Prod.snd) (places_substitute different c f)
  simpa only [places, List.map_map, Function.comp_def] using same

/-- **The traversals agree.** A name is free exactly when it has a free position;
positions come with the atoms in their order, and stand for the name. A constant
put in the place of a name changes these positions only. So the name is free no
longer, other names are free where they were, a name that is not free can be
replaced to no effect, and the order of replacements does not matter. Keeping the
bound names on a stack, or the visibility of one name as a flag, finds the same. -/
theorem traversals_agree (f : Formula) {x y : Name} (different : x ≠ y) (c d : Name) :
    (x ∈ f.freeVars ↔ ∃ place ∈ f.freePositions x, place.2 ≠ []) ∧
    (f.freePositions x).map Prod.fst = f.atoms ∧
    (∀ place ∈ f.freePositions x, ∀ position ∈ place.2,
      place.1.terms[position]? = some (.var x)) ∧
    (∀ g : Formula, g = f.substitute x c ↔ g.outline = f.outline ∧
      g.atoms = (f.freePositions x).map fun place => place.1.putAt c place.2) ∧
    (f.substitute x c).freeVars = f.freeVars.filter (· ≠ x) ∧
    ((f.substitute x c).freePositions y).map Prod.snd = (f.freePositions y).map Prod.snd ∧
    (f.substitute x c).relations = f.relations ∧
    (x ∉ f.freeVars → f.substitute x c = f) ∧
    (f.substitute x c).substitute y d = (f.substitute y d).substitute x c ∧
    f.freeVars = NameSet.ofList (f.occurrencesUnder []) ∧
    f.freePositions x = f.positionsWhile x true :=
  ⟨mem_freeVars_iff, map_fst_freePositions x f,
    fun _ listed _ stands => getElem?_of_mem_freePositions listed stands,
    fun _ => eq_substitute_iff, freeVars_substitute x c f,
    map_snd_freePositions_substitute different.symm c f, relations_substitute x c f,
    fun absent => substitute_of_not_mem_freeVars absent c,
    substitute_comm (fun same => absurd same different) f, freeVars_eq_occurrencesUnder f,
    (positionsWhile_eq x true f).symm⟩

/-- `R(x, y, x) ∧ ∃x (S(x, y) ∨ ∀y R(y, x, x))`. -/
def shadowing : Formula :=
  .and (.atom ⟨"R", [.var "x", .var "y", .var "x"]⟩)
    (.exist "x" (.or (.atom ⟨"S", [.var "x", .var "y"]⟩)
      (.forAll "y" (.atom ⟨"R", [.var "y", .var "x", .var "x"]⟩))))

/-- Both names are free in one place and hidden in another. -/
theorem traversals_agree_shadowing :
    ("x" : Name) ≠ "y" ∧
      (shadowing.freePositions "x").map Prod.snd = [[0, 2], [], []] ∧
      (shadowing.freePositions "y").map Prod.snd = [[1], [1], []] ∧
      ((shadowing.substitute "x" "a").freePositions "y").map Prod.snd =
        (shadowing.freePositions "y").map Prod.snd ∧
      (shadowing.substitute "x" "a").substitute "y" "b" =
        (shadowing.substitute "y" "b").substitute "x" "a" := by
  have different : ("x" : Name) ≠ "y" := by decide
  obtain ⟨-, -, -, -, -, kept, -, -, commute, -⟩ := traversals_agree shadowing different "a" "b"
  exact ⟨different, by decide, by decide, kept, commute⟩

end Formula

end SafePlan
