/-
# SafePlan.Proofs.Compilation — a compiled query computes the same number

A hierarchical query can be evaluated directly or as the formula it compiles to.
The direct way puts constants in the place of a variable and takes apart what is
left; compiling binds the variable and goes on with the atoms as they are. The
two meet because compiling commutes with substitution (`ofAtoms_substitute`): a
variable that is bound links atoms no more than a constant does, so the groups,
the leaves and the chosen variables are the same on both sides.

`compiled_ofAtoms` collects why the formula is accepted: its atoms are among
those of the query, of which no two have one relation; a bound name is bound
once and stands in all atoms below; and no other name is free. The products and
complements are then the same in the same order, up to products that begin with
`one` where the other way has a single factor. So `1 * p = p` is the only law.
-/
import SafePlan.Proofs.Hierarchical
import SafePlan.Proofs.Likelihood
import SafePlan.Proofs.Positions

set_option autoImplicit false

namespace SafePlan

namespace Formula

variable {vars bound bound' : List Name} {x c : Name} {atoms : List Atom} {f g : Formula}
  {fs : List Formula}

/-! ## Conjunctions -/

/-- What holds of all parts and of both sides together holds of the conjunction. -/
theorem conjunction_induct {holds : Formula → Prop} (truth : holds .truth)
    (and : ∀ f g, holds f → holds g → holds (.and f g)) (each : ∀ f ∈ fs, holds f) :
    holds (conjunction fs) := by
  cases fs with
  | nil => exact truth
  | cons f rest =>
    obtain ⟨first, later⟩ := List.forall_mem_cons.1 each
    show holds (rest.foldl .and f)
    clear each
    induction rest generalizing f with
    | nil => exact first
    | cons g rest ih =>
      obtain ⟨second, later'⟩ := List.forall_mem_cons.1 later
      exact ih (.and f g) (and f g first second) later'

theorem substitute_conjunction (x c : Name) (fs : List Formula) :
    (conjunction fs).substitute x c = conjunction (fs.map (substitute x c)) := by
  cases fs with
  | nil => rfl
  | cons f rest =>
    show (rest.foldl .and f).substitute x c =
      (rest.map (substitute x c)).foldl .and (f.substitute x c)
    induction rest generalizing f with
    | nil => rfl
    | cons g rest ih => exact ih (.and f g)

/-! ## Compiling and substitution -/

theorem mem_unbound_iff {y : Name} : unbound bound y = true ↔ y ∉ bound := by
  simp [unbound]

theorem unbound_nil : unbound [] = everyVar := rfl

theorem root?_eq_some {y : Name} (root : root? vars bound atoms = some y) :
    y ∈ vars ∧ y ∉ bound ∧ ∀ a ∈ atoms, y ∈ a.vars := by
  have found := List.find?_some root
  simp only [Bool.and_eq_true, mem_unbound_iff, List.all_eq_true, Atom.mentions_iff] at found
  exact ⟨List.mem_of_find?_eq_some root, found⟩

/-- One more bound variable links no more than a constant in its place. -/
theorem linked_substitute (outer : ∀ y, y ∈ bound' ↔ y = x ∨ y ∈ bound) (a : Atom) (y : Name) :
    unbound bound y = true ∧ y ∈ (a.substitute x c).vars ↔ unbound bound' y = true ∧ y ∈ a.vars := by
  rw [mem_unbound_iff, mem_unbound_iff, mem_vars_substitute, outer, not_or]
  exact ⟨fun ⟨free, occurs, other⟩ => ⟨⟨other, free⟩, occurs⟩,
    fun ⟨⟨other, free⟩, occurs⟩ => ⟨free, occurs, other⟩⟩

theorem groups_substitute (outer : ∀ y, y ∈ bound' ↔ y = x ∨ y ∈ bound) (atoms : List Atom) :
    groups (unbound bound) (Atom.substituteAll x c atoms) =
      (groups (unbound bound') atoms).map (Atom.substituteAll x c) :=
  groups_map fun a _ y => linked_substitute outer a y

theorem length_groups_substitute (outer : ∀ y, y ∈ bound' ↔ y = x ∨ y ∈ bound)
    (atoms : List Atom) :
    (groups (unbound bound) (Atom.substituteAll x c atoms)).length =
      (groups (unbound bound') atoms).length := by
  rw [groups_substitute outer, List.length_map]

theorem leaf?_substitute (outer : ∀ y, y ∈ bound' ↔ y = x ∨ y ∈ bound) (atoms : List Atom) :
    leaf? bound (Atom.substituteAll x c atoms) = (leaf? bound' atoms).map (Atom.substitute x c) := by
  match atoms with
  | [] => rfl
  | [a] =>
    have same : (a.substitute x c).vars.any (unbound bound) = a.vars.any (unbound bound') := by
      rw [Bool.eq_iff_iff, List.any_eq_true, List.any_eq_true]
      exact exists_congr fun y => and_comm.trans ((linked_substitute outer a y).trans and_comm)
    show (if (a.substitute x c).vars.any (unbound bound) then none else some (a.substitute x c)) =
      (if a.vars.any (unbound bound') then none else some a).map (Atom.substitute x c)
    rw [same]
    split <;> rfl
  | a :: b :: rest => rfl

theorem root?_substitute (outer : ∀ y, y ∈ bound' ↔ y = x ∨ y ∈ bound) (nonempty : atoms ≠ []) :
    root? vars bound (Atom.substituteAll x c atoms) = root? vars bound' atoms := by
  obtain ⟨first, listed⟩ := List.exists_mem_of_ne_nil _ nonempty
  have same : ∀ y, (unbound bound y && (Atom.substituteAll x c atoms).all (·.mentions y)) =
      (unbound bound' y && atoms.all (·.mentions y)) := by
    intro y
    rw [Bool.eq_iff_iff, Bool.and_eq_true, Bool.and_eq_true, List.all_eq_true, List.all_eq_true,
      Atom.substituteAll, List.forall_mem_map]
    simp only [Atom.mentions_iff]
    constructor
    · rintro ⟨free, everywhere⟩
      exact ⟨((linked_substitute outer first y).1 ⟨free, everywhere first listed⟩).1,
        fun a listedA => ((linked_substitute outer a y).1 ⟨free, everywhere a listedA⟩).2⟩
    · rintro ⟨free, everywhere⟩
      exact ⟨((linked_substitute (c := c) outer first y).2 ⟨free, everywhere first listed⟩).1,
        fun a listedA => ((linked_substitute outer a y).2 ⟨free, everywhere a listedA⟩).2⟩
  rw [root?, root?, funext same]

/-- **Compiling commutes with substitution.** By induction on compiling; that
the outer bindings have one name more is kept when a quantifier adds another. -/
theorem ofAtoms_substitute (outer : ∀ y, y ∈ bound' ↔ y = x ∨ y ∈ bound)
    (made : ofAtoms vars bound' atoms = .ok f) :
    ofAtoms vars bound (Atom.substituteAll x c atoms) = .ok (f.substitute x c) := by
  induction bound', atoms using ofAtoms.induct vars generalizing bound f with
  | case1 bound' atoms single a leaf =>
    rw [ofAtoms_of_leaf single leaf] at made
    cases made
    refine ofAtoms_of_leaf ((length_groups_substitute outer atoms).trans single) ?_
    rw [leaf?_substitute outer, leaf, Option.map_some]
  | case2 bound' atoms single noLeaf y root ih =>
    have different : y ≠ x := by
      rintro rfl
      exact (root?_eq_some root).2.1 ((outer y).2 (.inl rfl))
    have nonempty : atoms ≠ [] := ne_nil_of_single_group single
    have outer' : ∀ z, z ∈ y :: bound' ↔ z = x ∨ z ∈ y :: bound := by
      intro z
      rw [List.mem_cons, List.mem_cons, outer]
      exact or_left_comm
    rw [ofAtoms_of_root single noLeaf root] at made
    obtain ⟨g, madeG, rfl⟩ := map_eq_ok_iff.1 made
    rw [ofAtoms_of_root ((length_groups_substitute outer atoms).trans single)
        (by rw [leaf?_substitute outer, noLeaf, Option.map_none])
        ((root?_substitute outer nonempty).trans root), ih outer' madeG, substitute,
      if_neg different]
    rfl
  | case3 bound' atoms single noLeaf noRoot =>
    rw [ofAtoms_of_noRoot single noLeaf noRoot] at made
    cases made
  | case4 bound' atoms several ih =>
    rw [ofAtoms_of_groups several] at made
    obtain ⟨fs, madeAll, rfl⟩ := map_eq_ok_iff.1 made
    have each : List.Forall₂ (fun group f =>
        ofAtoms vars bound (Atom.substituteAll x c group) = .ok (f.substitute x c))
        (groups (unbound bound') atoms) fs :=
      forall₂_of_mapM madeAll fun group listed f => ih ⟨group, listed⟩ outer
    have madeAll' : (groups (unbound bound) (Atom.substituteAll x c atoms)).mapM
        (ofAtoms vars bound) = .ok (fs.map (substitute x c)) := by
      rw [groups_substitute outer, mapM_eq_ok_iff, List.forall₂_map_left_iff,
        List.forall₂_map_right_iff]
      exact each
    have several' := (length_groups_substitute (c := c) outer atoms).trans_ne several
    rw [ofAtoms_of_groups several', madeAll', substitute_conjunction]
    rfl

/-! ## What compiling makes -/

/-- The formula of some atoms below quantifiers of the bound names. -/
structure Compiled (bound : List Name) (atoms : List Atom) (f : Formula) : Prop where
  within : ∀ a ∈ f.atoms, a ∈ atoms
  visible : ∀ x ∈ bound, f.Visible x
  closed : ∀ x ∈ f.freeOccurrences, x ∈ bound

theorem Compiled.mono {group : List Atom} (compiled : Compiled bound group f)
    (subset : group ⊆ atoms) : Compiled bound atoms f where
  within a listed := subset (compiled.within a listed)
  visible := compiled.visible
  closed := compiled.closed

theorem compiled_truth : Compiled bound atoms .truth where
  within _ listed := absurd listed List.not_mem_nil
  visible _ _ := rfl
  closed _ occurs := absurd occurs List.not_mem_nil

theorem compiled_and (left : Compiled bound atoms f) (right : Compiled bound atoms g) :
    Compiled bound atoms (.and f g) where
  within := List.forall_mem_append.2 ⟨left.within, right.within⟩
  visible x listed := visible_and (left.visible x listed) (right.visible x listed)
  closed := List.forall_mem_append.2 ⟨left.closed, right.closed⟩

/-- A new quantifier hides none of the outer names. -/
theorem compiled_exist {y : Name} (fresh : y ∉ bound) (body : Compiled (y :: bound) atoms f) :
    Compiled bound atoms (.exist y f) where
  within := body.within
  visible x listed := by
    have different : y ≠ x := by
      rintro rfl
      exact fresh listed
    rw [Visible, freePositions, if_neg different]
    exact body.visible x (List.mem_cons_of_mem _ listed)
  closed x occurs := by
    obtain ⟨free, different⟩ := List.mem_filter.1 occurs
    rcases List.mem_cons.1 (body.closed x free) with rfl | outer
    · simp at different
    · exact outer

theorem eq_singleton_of_leaf? {a : Atom} (leaf : leaf? bound atoms = some a) :
    atoms = [a] ∧ ∀ x ∈ a.vars, x ∈ bound := by
  match atoms with
  | [] => cases leaf
  | [b] =>
    rw [leaf?] at leaf
    split at leaf <;> rename_i closed
    · cases leaf
    · obtain rfl := Option.some.inj leaf
      refine ⟨rfl, fun x occurs => Classical.byContradiction fun free => closed ?_⟩
      exact List.any_eq_true.2 ⟨x, occurs, mem_unbound_iff.2 free⟩
  | a :: b :: rest => cases leaf

theorem compiled_ofAtoms (made : ofAtoms vars bound atoms = .ok f) : Compiled bound atoms f := by
  induction bound, atoms using ofAtoms.induct vars generalizing f with
  | case1 bound atoms single a leaf =>
    rw [ofAtoms_of_leaf single leaf] at made
    obtain rfl : Formula.atom a = f := Except.ok.inj made
    obtain ⟨rfl, closed⟩ := eq_singleton_of_leaf? leaf
    exact ⟨fun b listed => listed, fun x _ => rfl, closed⟩
  | case2 bound atoms single noLeaf y root ih =>
    rw [ofAtoms_of_root single noLeaf root] at made
    obtain ⟨g, madeG, rfl⟩ := map_eq_ok_iff.1 made
    exact compiled_exist (root?_eq_some root).2.1 (ih madeG)
  | case3 bound atoms single noLeaf noRoot =>
    rw [ofAtoms_of_noRoot single noLeaf noRoot] at made
    cases made
  | case4 bound atoms several ih =>
    rw [ofAtoms_of_groups several] at made
    obtain ⟨fs, madeAll, rfl⟩ := map_eq_ok_iff.1 made
    refine conjunction_induct compiled_truth (fun f g => compiled_and) fun f listed => ?_
    obtain ⟨group, listedGroup, madeF⟩ := exists_input (mapM_eq_ok_iff.1 madeAll) listed
    exact (ih ⟨group, listedGroup⟩ madeF).mono (sublist_of_mem_groups listedGroup).subset

/-- A variable that is eliminated separates the compiled body. -/
theorem isSeparator_of_compiled (unrepeated : (atoms.map Atom.relation).Nodup)
    (mentions : ∀ a ∈ atoms, x ∈ a.vars) (listed : x ∈ bound) (compiled : Compiled bound atoms f) :
    f.isSeparator x = true := by
  refine isSeparator_iff.2 ⟨compiled.visible x listed, ?_, ?_⟩
  · intro a listedA
    exact Atom.positionsOf_ne_nil (mentions a (compiled.within a listedA))
  · intro a listedA b listedB sameRelation
    rw [List.inj_on_of_nodup_map unrepeated (compiled.within a listedA)
      (compiled.within b listedB) sameRelation]

/-! ## Values of compiled formulas -/

section Values

variable {P : Type} [Arithmetic P] {domain : List Name} {chance : Fact → P} {p p' : P}

/-- The formula is accepted over the domain, and its plan has this value. -/
def Yields (domain : List Name) (chance : Fact → P) (f : Formula) (p : P) : Prop :=
  ∃ plan, Plan.ofFormula domain f = .ok plan ∧ plan.value chance = p

theorem yields_atom {a : Atom} (ground : a.isGround = true) :
    Yields domain chance (.atom a) (chance a.fact) := by
  have fine : (Formula.atom a).fault? = none := by
    rw [fault?, (a.isGround_iff).1 ground]
    rfl
  exact ⟨_, Plan.ofFormula_atom fine, rfl⟩

theorem yields_and (unshared : sharedRelation? f g = none) (left : Yields domain chance f p)
    (right : Yields domain chance g p') :
    Yields domain chance (.and f g) (Arithmetic.all [p, p']) := by
  obtain ⟨planLeft, drawnLeft, rfl⟩ := left
  obtain ⟨planRight, drawnRight, rfl⟩ := right
  have fine : (Formula.and f g).fault? = none := by
    rw [fault?, unshared]
    rfl
  refine ⟨.combine .split (.and f g) [planLeft, planRight], ?_, rfl⟩
  rw [Plan.ofFormula_and fine, drawnLeft, drawnRight]
  rfl

/-- Conjunctions nest to the left, as products do. -/
theorem yields_foldl (one_mul : ∀ p : P, Arithmetic.mul Arithmetic.one p = p) {ps : List P}
    (first : Yields domain chance f p) (others : List.Forall₂ (Yields domain chance) fs ps)
    (unshared : (f :: fs).Pairwise fun f g => ∀ a ∈ f.atoms, ∀ b ∈ g.atoms, a.relation ≠ b.relation) :
    Yields domain chance (fs.foldl .and f) (ps.foldl Arithmetic.mul p) := by
  induction others generalizing f p with
  | nil => exact first
  | @cons g q fs ps second _ ih =>
    obtain ⟨fromFirst, unshared'⟩ := List.pairwise_cons.1 unshared
    obtain ⟨fromSecond, unshared''⟩ := List.pairwise_cons.1 unshared'
    have both : Yields domain chance (.and f g) (Arithmetic.mul p q) := by
      have shape : Arithmetic.all [p, q] = Arithmetic.mul p q := by
        show Arithmetic.mul (Arithmetic.mul Arithmetic.one p) q = _
        rw [one_mul]
      rw [← shape]
      exact yields_and (sharedRelation?_eq_none_iff.2 (fromFirst g List.mem_cons_self)) first second
    refine ih both (List.pairwise_cons.2 ⟨fun h listed => ?_, unshared''⟩)
    exact List.forall_mem_append.2
      ⟨fromFirst h (List.mem_cons_of_mem _ listed), fromSecond h listed⟩

theorem yields_conjunction (one_mul : ∀ p : P, Arithmetic.mul Arithmetic.one p = p) {ps : List P}
    (parts : List.Forall₂ (Yields domain chance) fs ps)
    (unshared : fs.Pairwise fun f g => ∀ a ∈ f.atoms, ∀ b ∈ g.atoms, a.relation ≠ b.relation) :
    Yields domain chance (conjunction fs) (Arithmetic.all ps) := by
  cases parts with
  | nil => exact ⟨_, Plan.ofFormula_truth, rfl⟩
  | @cons f p fs ps first others =>
    have shape : Arithmetic.all (p :: ps) = ps.foldl Arithmetic.mul p := by
      rw [Arithmetic.all, List.foldl_cons, one_mul]
    rw [shape]
    exact yields_foldl one_mul first others unshared

theorem yields_exist {ps : List P} (separates : f.isSeparator x = true)
    (branches : List.Forall₂ (fun c p => Yields domain chance (f.substitute x c) p) domain ps) :
    Yields domain chance (.exist x f) (Arithmetic.any ps) := by
  obtain ⟨plans, drawn, rfl⟩ := exists_mapM_of_values branches
  have fine : (Formula.exist x f).fault? = none := by rw [fault?, if_pos separates]
  refine ⟨.combine (.eliminate x) (.exist x f) plans, ?_, ?_⟩
  · rw [Plan.ofFormula_exist fine, drawn]
    rfl
  · rw [Plan.value, Plan.values_eq_map, Combination.apply]

end Values

/-! ## Side by side -/

/-- Ground atoms stand one by one. -/
theorem ofAtoms_of_ground (ground : ∀ a ∈ atoms, a.isGround = true) :
    ofAtoms vars bound atoms = .ok (conjunction (atoms.map .atom)) := by
  have unlinked : ∀ a ∈ atoms, ∀ x ∈ a.vars, unbound bound x = false := by
    intro a listed x occurs
    rw [(a.isGround_iff).1 (ground a listed)] at occurs
    cases occurs
  have alone : ∀ a ∈ atoms, ofAtoms vars bound [a] = .ok (.atom a) := by
    intro a listed
    have noVars := (a.isGround_iff).1 (ground a listed)
    refine ofAtoms_of_leaf ?_ (by simp [leaf?, noVars])
    rw [groups_of_unlinked (by simp [noVars])]
    rfl
  by_cases single : (groups (unbound bound) atoms).length = 1
  · rw [groups_of_unlinked unlinked, List.length_map] at single
    obtain ⟨a, rfl⟩ := List.length_eq_one_iff.1 single
    exact alone a (by simp)
  · have made : (groups (unbound bound) atoms).mapM (ofAtoms vars bound) =
        .ok (atoms.map .atom) := by
      rw [groups_of_unlinked unlinked, mapM_eq_ok_iff, List.forall₂_map_left_iff,
        List.forall₂_map_right_iff, List.forall₂_same]
      exact alone
    rw [ofAtoms_of_groups single, made]
    rfl

/-- Atoms that are split are compiled group by group. -/
theorem ofAtoms_of_split
    (rule : Decomposition.of vars atoms = .ok (.split (groups everyVar atoms))) :
    ofAtoms vars [] atoms =
      ((groups everyVar atoms).mapM (ofAtoms vars [])).map conjunction := by
  obtain ⟨-, several⟩ := Decomposition.parts_eq_groups rule
  rw [ofAtoms_of_groups (by rw [unbound_nil]; omega), unbound_nil]

/-- A variable that is eliminated is bound around the compiled atoms. -/
theorem ofAtoms_of_eliminate (rule : Decomposition.of vars atoms = .ok (.eliminate x)) :
    ofAtoms vars [] atoms = (ofAtoms vars [x] atoms).map (.exist x) := by
  obtain ⟨single, root⟩ := Decomposition.single_of_eliminate rule
  obtain ⟨-, mentions⟩ := Decomposition.mentions_of_eliminate rule
  have noLeaf : leaf? [] atoms = none := by
    refine Option.eq_none_iff_forall_ne_some.2 fun a leaf => ?_
    obtain ⟨rfl, closed⟩ := eq_singleton_of_leaf? leaf
    exact List.not_mem_nil (closed x (mentions a List.mem_cons_self))
  have rootHere : root? vars [] atoms = some x := root
  exact ofAtoms_of_root (by rwa [unbound_nil]) noLeaf rootHere

end Formula

/-- **Both ways compute the same number.** By induction on the decomposition,
with the formula that each part of it compiles to at its side. -/
theorem Formula.yields_ofAtoms {P : Type} [Arithmetic P]
    (one_mul : ∀ p : P, Arithmetic.mul Arithmetic.one p = p) {vars domain : List Name}
    (chance : Fact → P) {atoms : List Atom} {f : Formula} {plan : Plan (List Atom)}
    (unrepeated : (atoms.map Atom.relation).Nodup)
    (drawn : Plan.ofAtoms vars domain atoms = .ok plan)
    (made : Formula.ofAtoms vars [] atoms = .ok f) :
    Yields domain chance f (plan.value chance) := by
  induction atoms using Plan.ofAtoms.induct vars generalizing f plan with
  | case1 atoms unsupported rule =>
    rw [Plan.ofAtoms_of_error rule] at drawn
    cases drawn
  | case2 atoms rule =>
    have ground := Decomposition.isGround_of_ground rule
    rw [Plan.ofAtoms_of_ground rule] at drawn
    rw [ofAtoms_of_ground ground] at made
    cases drawn
    cases made
    rw [Plan.value, List.map_map]
    refine yields_conjunction one_mul ?_ ?_
    · rw [List.forall₂_map_left_iff, List.forall₂_map_right_iff, List.forall₂_same]
      exact fun a listed => yields_atom (ground a listed)
    · refine List.pairwise_map.2 ((List.pairwise_map.1 unrepeated).imp fun different => ?_)
      simpa [Formula.atoms] using different
  | case3 atoms parts rule ih =>
    obtain ⟨rfl, -⟩ := Decomposition.parts_eq_groups rule
    rw [Plan.ofAtoms_of_split rule] at drawn
    obtain ⟨plans, drawnAll, rfl⟩ := map_eq_ok_iff.1 drawn
    rw [ofAtoms_of_split rule] at made
    obtain ⟨fs, madeAll, rfl⟩ := map_eq_ok_iff.1 made
    rw [Plan.value, Plan.values_eq_map]
    refine yields_conjunction one_mul (List.forall₂_map_right_iff.2 ?_) ?_
    · refine forall₂_results madeAll drawnAll fun group listed f plan madeF drawnPlan => ?_
      have kept := unrepeated.sublist ((sublist_of_mem_groups listed).map _)
      exact ih ⟨group, listed⟩ kept drawnPlan madeF
    · refine pairwise_results (mapM_eq_ok_iff.1 madeAll)
        ((parted_groups everyVar _).pairwise_relations unrepeated) ?_
      intro group other f g madeF madeG apart a listedA b listedB
      exact apart a ((compiled_ofAtoms madeF).within a listedA) b
        ((compiled_ofAtoms madeG).within b listedB)
  | case4 atoms x rule ih =>
    obtain ⟨-, mentions⟩ := Decomposition.mentions_of_eliminate rule
    rw [Plan.ofAtoms_of_eliminate rule] at drawn
    obtain ⟨plans, drawnAll, rfl⟩ := map_eq_ok_iff.1 drawn
    rw [ofAtoms_of_eliminate rule] at made
    obtain ⟨g, madeG, rfl⟩ := map_eq_ok_iff.1 made
    rw [Plan.value, Plan.values_eq_map]
    refine yields_exist ?_ (List.forall₂_map_right_iff.2 ?_)
    · exact isSeparator_of_compiled unrepeated mentions List.mem_cons_self (compiled_ofAtoms madeG)
    · refine forall₂_of_mapM drawnAll fun c _ plan drawnC => ?_
      have kept : ((Atom.substituteAll x c atoms).map Atom.relation).Nodup := by
        simpa [Atom.substituteAll, Function.comp_def] using unrepeated
      exact ih c kept drawnC (ofAtoms_substitute (fun y => List.mem_cons) madeG)

namespace Query

/-- **A hierarchical query compiles to a formula that is accepted in every store
and gets the very same number there.** It takes no law of arithmetic but that a
product may begin with one. -/
theorem formula_evaluate_eq {P : Type} [Arithmetic P]
    (one_mul : ∀ p : P, Arithmetic.mul Arithmetic.one p = p) (q : Query)
    (hierarchical : q.checkHierarchical = .ok ()) (s : Store P) (options options' : Options) :
    ∃ f compiled direct, q.formula = .ok f ∧ f.evaluate s options = .ok compiled ∧
      q.evaluate s options' = .ok direct ∧ compiled.probability = direct.probability := by
  have fits := q.decomposable (q.checkHierarchical_eq_ok_iff.1 hierarchical)
  obtain ⟨directPlan, drawn⟩ := Plan.exists_ofAtoms s.domain fits
  obtain ⟨f, made⟩ := Formula.exists_ofAtoms [] fits
  obtain ⟨plan, accepted, same⟩ :=
    Formula.yields_ofAtoms one_mul s.chance q.valid.unrepeated drawn made
  have closed : f.freeVars = [] := by
    refine List.eq_nil_iff_forall_not_mem.2 fun x free => ?_
    exact List.not_mem_nil ((Formula.compiled_ofAtoms made).closed x (NameSet.mem_ofList.1 free))
  refine ⟨f, plan.evaluate Formula.display s options,
    directPlan.evaluate q.displayPart s options', ?_, ?_, ?_, same⟩
  · rw [q.formula_eq hierarchical, made]
  · rw [Formula.evaluate, Formula.plan, closed, accepted]
    rfl
  · rw [evaluate, q.plan_eq s.domain hierarchical, drawn]
    rfl

/-- `∃x (R(x) ∧ ∃y S(x, y))` in place of `x, y | R(x), S(x, y)`. -/
theorem formula_evaluate_reachable :
    reachable.checkHierarchical = .ok () ∧
      (∀ p : Rat, Arithmetic.mul Arithmetic.one p = p) ∧
      ∃ f compiled direct, reachable.formula = .ok f ∧
        f.evaluate Store.pair {} = .ok compiled ∧ reachable.evaluate Store.pair {} = .ok direct ∧
        compiled.probability = direct.probability ∧ direct.probability = 1 / 6 := by
  have hierarchical : reachable.checkHierarchical = .ok () := by decide
  have oneMul : ∀ p : Rat, Arithmetic.mul Arithmetic.one p = p := one_mul
  obtain ⟨f, compiled, direct, made, accepted, drawn, same⟩ :=
    formula_evaluate_eq oneMul reachable hierarchical Store.pair {} {}
  have computed : (reachable.evaluate Store.pair {}).toOption.map (·.probability) = some (1 / 6) := by
    decide +kernel
  rw [drawn] at computed
  exact ⟨hierarchical, oneMul, f, compiled, direct, made, accepted, drawn, same,
    Option.some.inj computed⟩

end Query

end SafePlan
