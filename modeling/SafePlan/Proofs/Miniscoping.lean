/-
# SafePlan.Proofs.Miniscoping — a compiled query says what the query says

The formula of a query has each quantifier pushed down to the atoms that use its
variable. Nothing is lost or repeated on the way: the formula has the atoms of
the query, and it binds each variable that occurs once and no other
(`scoped_ofAtoms`, by induction on compiling). A variable that is bound is not
bound again in the body, since there it links no atoms; and two groups bind
different variables, since no variable that is yet to be bound is in both.

That every atom in a body contains the bound variable is why the empty domain
is no exception (`holds_ofAtoms`). A quantifier over atoms that do not use its
variable would ask for a constant where the query asks for none.
-/
import SafePlan.Proofs.AtomValues
import SafePlan.Proofs.Compilation
import SafePlan.Proofs.QueryLikelihood

set_option autoImplicit false

namespace SafePlan

namespace Formula

/-- Built from atoms by conjunction and existential quantification. -/
inductive Conjunctive : Formula → Prop
  | atom (a : Atom) : Conjunctive (.atom a)
  | and {f g : Formula} : Conjunctive f → Conjunctive g → Conjunctive (.and f g)
  | exist (x : Name) {f : Formula} : Conjunctive f → Conjunctive (.exist x f)

/-- The quantifiers from left to right, outer ones first: the variable that each
binds, and its body. -/
def scopes : Formula → List (Name × Formula)
  | .truth => []
  | .atom _ => []
  | .not f => f.scopes
  | .and f g => f.scopes ++ g.scopes
  | .or f g => f.scopes ++ g.scopes
  | .exist x f => (x, f) :: f.scopes
  | .forAll x f => (x, f) :: f.scopes

/-- The names that are bound, as often as they are. -/
def binders (f : Formula) : List Name := f.scopes.map Prod.fst

variable {vars bound : List Name} {atoms : List Atom} {f g : Formula} {fs : List Formula}
  {x : Name}

/-! ## Conjunctions -/

/-- What is collected from both sides is collected from all parts. -/
theorem collect_conjunction {α : Type} {collect : Formula → List α} (truth : collect .truth = [])
    (and : ∀ f g, collect (.and f g) = collect f ++ collect g) (fs : List Formula) :
    collect (conjunction fs) = fs.flatMap collect := by
  cases fs with
  | nil => exact truth
  | cons f rest =>
    show collect (rest.foldl .and f) = collect f ++ rest.flatMap collect
    induction rest generalizing f with
    | nil => exact (List.append_nil _).symm
    | cons g rest ih => rw [List.foldl_cons, ih, and, List.flatMap_cons, List.append_assoc]

theorem conjunctive_conjunction (nonempty : fs ≠ []) (each : ∀ f ∈ fs, f.Conjunctive) :
    (conjunction fs).Conjunctive := by
  cases fs with
  | nil => exact absurd rfl nonempty
  | cons f rest =>
    obtain ⟨first, later⟩ := List.forall_mem_cons.1 each
    exact List.foldlRecOn rest .and first fun g isConjunctive h listed =>
      .and isConjunctive (later h listed)

theorem holds_conjunction {domain : List Name} {world : World} {σ : Assignment} :
    (conjunction fs).Holds domain world σ ↔ ∀ f ∈ fs, f.Holds domain world σ := by
  cases fs with
  | nil => exact iff_of_true trivial fun _ listed => absurd listed List.not_mem_nil
  | cons f rest =>
    show (rest.foldl .and f).Holds domain world σ ↔ _
    induction rest generalizing f with
    | nil => exact List.forall_mem_singleton.symm
    | cons g rest ih =>
      rw [List.foldl_cons, ih]
      simp only [List.forall_mem_cons, Holds, and_assoc]

/-! ## What compiling binds -/

/-- The formula has these atoms. It binds once each variable in them that is not
bound around it, and in every atom of a quantifier's body stands its variable. -/
structure Scoped (bound : List Name) (atoms : List Atom) (f : Formula) : Prop where
  atoms : f.atoms.Perm atoms
  once : f.binders.Nodup
  binds : ∀ x, x ∈ f.binders ↔ x ∉ bound ∧ ∃ a ∈ f.atoms, x ∈ a.vars
  used : ∀ scope ∈ f.scopes, ∀ a ∈ scope.2.atoms, scope.1 ∈ a.vars

theorem scoped_leaf {a : Atom} (closed : ∀ x ∈ a.vars, x ∈ bound) :
    Scoped bound [a] (.atom a) where
  atoms := .refl _
  once := .nil
  binds x := by
    refine iff_of_false List.not_mem_nil ?_
    rintro ⟨free, b, listed, occurs⟩
    obtain rfl := List.mem_singleton.1 listed
    exact free (closed x occurs)
  used _ listed := absurd listed List.not_mem_nil

theorem Scoped.exist (body : Scoped (x :: bound) atoms f) (fresh : x ∉ bound)
    (nonempty : atoms ≠ []) (everywhere : ∀ a ∈ atoms, x ∈ a.vars) :
    Scoped bound atoms (.exist x f) where
  atoms := body.atoms
  once := by
    refine List.nodup_cons.2 ⟨fun again => ?_, body.once⟩
    exact ((body.binds x).1 again).1 List.mem_cons_self
  binds y := by
    show y ∈ x :: f.binders ↔ y ∉ bound ∧ ∃ a ∈ f.atoms, y ∈ a.vars
    rw [List.mem_cons, body.binds, List.mem_cons, not_or]
    constructor
    · rintro (rfl | ⟨⟨-, free⟩, occurs⟩)
      · obtain ⟨a, listed⟩ := List.exists_mem_of_ne_nil _ nonempty
        exact ⟨fresh, a, body.atoms.mem_iff.2 listed, everywhere a listed⟩
      · exact ⟨free, occurs⟩
    · rintro ⟨free, occurs⟩
      by_cases same : y = x
      · exact .inl same
      · exact .inr ⟨⟨same, free⟩, occurs⟩
  used := by
    refine List.forall_mem_cons.2 ⟨fun a listed => ?_, body.used⟩
    exact everywhere a (body.atoms.mem_iff.1 listed)

/-- Groups that share no variable but bound ones bind different variables. -/
theorem scoped_conjunction {parts : List (List Atom)}
    (each : List.Forall₂ (Scoped bound) parts fs) (perm : parts.flatten.Perm atoms)
    (apart : parts.Pairwise fun part other =>
      ∀ a ∈ part, ∀ b ∈ other, ∀ x, x ∉ bound → x ∈ a.vars → x ∉ b.vars) :
    Scoped bound atoms (conjunction fs) := by
  have allAtoms : (conjunction fs).atoms = fs.flatMap Formula.atoms :=
    collect_conjunction rfl (fun _ _ => rfl) fs
  have allScopes : (conjunction fs).scopes = fs.flatMap scopes :=
    collect_conjunction rfl (fun _ _ => rfl) fs
  have allBinders : (conjunction fs).binders = fs.flatMap binders := by
    rw [binders, allScopes, List.map_flatMap]
    rfl
  have placed : ∀ f ∈ fs, ∃ part, Scoped bound part f := by
    intro f listed
    obtain ⟨part, -, placed⟩ := exists_input each listed
    exact ⟨part, placed⟩
  refine ⟨?_, ?_, fun x => ?_, ?_⟩
  · rw [allAtoms]
    refine List.Perm.trans ?_ perm
    clear allAtoms allScopes allBinders placed perm apart
    induction each with
    | nil => exact .nil
    | cons here _ ih => exact here.atoms.append ih
  · rw [allBinders]
    refine List.nodup_flatMap.2 ⟨fun f listed => ?_, pairwise_results each apart ?_⟩
    · obtain ⟨part, placed⟩ := placed f listed
      exact placed.once
    · intro part other f g here there apart x inF inG
      obtain ⟨free, a, listed, occurs⟩ := (here.binds x).1 inF
      obtain ⟨-, b, listed', occurs'⟩ := (there.binds x).1 inG
      exact apart a (here.atoms.mem_iff.1 listed) b (there.atoms.mem_iff.1 listed') x free occurs
        occurs'
  · rw [allBinders, allAtoms]
    simp only [List.mem_flatMap]
    constructor
    · rintro ⟨f, listed, bindsX⟩
      obtain ⟨part, placed⟩ := placed f listed
      obtain ⟨free, a, inF, occurs⟩ := (placed.binds x).1 bindsX
      exact ⟨free, a, ⟨f, listed, inF⟩, occurs⟩
    · rintro ⟨free, a, ⟨f, listed, inF⟩, occurs⟩
      obtain ⟨part, placed⟩ := placed f listed
      exact ⟨f, listed, (placed.binds x).2 ⟨free, a, inF, occurs⟩⟩
  · rw [allScopes]
    intro scope listed
    obtain ⟨f, listedF, inF⟩ := List.mem_flatMap.1 listed
    obtain ⟨part, placed⟩ := placed f listedF
    exact placed.used scope inF

/-- **Compiling binds once what it has to.** By induction on compiling. -/
theorem scoped_ofAtoms (made : ofAtoms vars bound atoms = .ok f) : Scoped bound atoms f := by
  induction bound, atoms using ofAtoms.induct vars generalizing f with
  | case1 bound atoms single a leaf =>
    rw [ofAtoms_of_leaf single leaf] at made
    cases made
    obtain ⟨rfl, closed⟩ := eq_singleton_of_leaf? leaf
    exact scoped_leaf closed
  | case2 bound atoms single noLeaf y root ih =>
    rw [ofAtoms_of_root single noLeaf root] at made
    obtain ⟨g, madeG, rfl⟩ := map_eq_ok_iff.1 made
    obtain ⟨-, free, everywhere⟩ := root?_eq_some root
    exact (ih madeG).exist free (ne_nil_of_single_group single) everywhere
  | case3 bound atoms single noLeaf noRoot =>
    rw [ofAtoms_of_noRoot single noLeaf noRoot] at made
    cases made
  | case4 bound atoms several ih =>
    rw [ofAtoms_of_groups several] at made
    obtain ⟨fs, madeAll, rfl⟩ := map_eq_ok_iff.1 made
    refine scoped_conjunction ?_ (flatten_groups_perm (unbound bound) atoms) ?_
    · exact forall₂_of_mapM madeAll fun group listed f => ih ⟨group, listed⟩
    · refine (pairwise_groups (unbound bound) atoms).imp ?_
      intro part other apart a listedA b listedB x free
      exact apart a listedA b listedB x (mem_unbound_iff.2 free)

theorem conjunctive_ofAtoms (nonempty : atoms ≠ []) (made : ofAtoms vars bound atoms = .ok f) :
    f.Conjunctive := by
  induction bound, atoms using ofAtoms.induct vars generalizing f with
  | case1 bound atoms single a leaf =>
    rw [ofAtoms_of_leaf single leaf] at made
    cases made
    exact .atom a
  | case2 bound atoms single noLeaf y root ih =>
    rw [ofAtoms_of_root single noLeaf root] at made
    obtain ⟨g, madeG, rfl⟩ := map_eq_ok_iff.1 made
    exact .exist y (ih nonempty madeG)
  | case3 bound atoms single noLeaf noRoot =>
    rw [ofAtoms_of_noRoot single noLeaf noRoot] at made
    cases made
  | case4 bound atoms several ih =>
    rw [ofAtoms_of_groups several] at made
    obtain ⟨fs, madeAll, rfl⟩ := map_eq_ok_iff.1 made
    have outcome := mapM_eq_ok_iff.1 madeAll
    refine conjunctive_conjunction ?_ fun f listed => ?_
    · rintro rfl
      exact nonempty (groups_eq_nil_iff.1 (List.forall₂_nil_right_iff.1 outcome))
    · obtain ⟨group, listedGroup, madeF⟩ := exists_input outcome listed
      exact ih ⟨group, listedGroup⟩ (ne_nil_of_mem_groups listedGroup) madeF

/-! ## What it means -/

/-- **Compiled atoms are true where some assignment makes them facts.** By
induction on the decomposition, with the formula of each part at its side. -/
theorem holds_ofAtoms {domain : List Name} {world : World} {σ : Assignment}
    (fits : Decomposable vars atoms) (made : ofAtoms vars [] atoms = .ok f) :
    f.Holds domain world σ ↔ Satisfiable domain atoms world := by
  induction atoms, fits using Decomposable.induct generalizing f with
  | ground atoms fits rule =>
    have ground := Decomposition.isGround_of_ground rule
    rw [ofAtoms_of_ground ground] at made
    cases made
    rw [holds_conjunction, satisfiable_ground ground, List.forall_mem_map, List.forall_mem_map]
    refine forall₂_congr fun a listed => ?_
    rw [Holds, a.factAt_of_isGround σ (ground a listed)]
  | split atoms fits rule ih =>
    rw [ofAtoms_of_split rule] at made
    obtain ⟨fs, madeAll, rfl⟩ := map_eq_ok_iff.1 made
    have truths : fs.map (Holds domain world σ) =
        (groups everyVar atoms).map fun group => Satisfiable domain group world :=
      map_results (forall₂_of_mapM madeAll fun group listed f madeF => propext (ih group listed madeF))
    rw [holds_conjunction, satisfiable_parts (parted_groups everyVar atoms),
      ← Combination.holds_split, truths, Combination.holds_split]
  | eliminate atoms fits x rule ih =>
    obtain ⟨nonempty, mentions⟩ := Decomposition.mentions_of_eliminate rule
    rw [ofAtoms_of_eliminate rule] at made
    obtain ⟨g, madeG, rfl⟩ := map_eq_ok_iff.1 made
    rw [Holds, satisfiable_eliminate nonempty mentions]
    refine exists_congr fun c => and_congr_right fun _ => ?_
    rw [← holds_substitute]
    exact ih c (ofAtoms_substitute (fun y => List.mem_cons) madeG)

end Formula

/-! ## Queries -/

namespace Query

/-- **Compiling is a faithful rewriting.** The formula of a hierarchical query is
closed, is `truth` for no atoms and else built from atoms by conjunction and
existential quantification, has the query's atoms, binds each variable that
occurs in them by one quantifier over atoms that all contain it and no other
variable, and is true in the same worlds, over any domain. -/
theorem formula_faithful (q : Query) (hierarchical : q.checkHierarchical = .ok ()) :
    ∃ f, q.formula = .ok f ∧ f.isClosed = true ∧
      (f = .truth ∨ f.Conjunctive) ∧ (f = .truth ↔ q.atoms = []) ∧ f.atoms.Perm q.atoms ∧
      (∀ x, f.binders.count x = if x ∈ q.occurringVars then 1 else 0) ∧
      (∀ scope ∈ f.scopes, ∀ a ∈ scope.2.atoms, scope.1 ∈ a.vars) ∧
      ∀ (domain : List Name) (world : World) (σ : Assignment),
        f.Holds domain world σ ↔ q.Holds domain world := by
  have fits := q.decomposable (q.checkHierarchical_eq_ok_iff.1 hierarchical)
  obtain ⟨f, made⟩ := Formula.exists_ofAtoms [] fits
  have placed := Formula.scoped_ofAtoms made
  have empty : q.atoms = [] → f = .truth := by
    intro none
    rw [none, Formula.ofAtoms_of_ground (by simp)] at made
    exact (Except.ok.inj made).symm
  refine ⟨f, (q.formula_eq hierarchical).trans made, ?_, ?_, ⟨?_, empty⟩, placed.atoms, ?_,
    placed.used, ?_⟩
  · refine List.isEmpty_iff.2 (List.eq_nil_iff_forall_not_mem.2 fun x free => ?_)
    exact List.not_mem_nil ((Formula.compiled_ofAtoms made).closed x free)
  · by_cases none : q.atoms = []
    · exact .inl (empty none)
    · exact .inr (Formula.conjunctive_ofAtoms none made)
  · rintro rfl
    exact placed.atoms.symm.eq_nil
  · intro x
    have occurs_iff : x ∈ f.binders ↔ x ∈ q.occurringVars := by
      rw [placed.binds, mem_occurringVars]
      simp only [placed.atoms.mem_iff, List.not_mem_nil, not_false_eq_true, true_and]
    split <;> rename_i occurs
    · exact List.count_eq_one_of_mem placed.once (occurs_iff.2 occurs)
    · exact List.count_eq_zero_of_not_mem (mt occurs_iff.1 occurs)
  · intro domain world σ
    rw [q.holds_iff_satisfiable, Formula.holds_ofAtoms fits made]

/-- `x, y, z | R(x, y), S(x), T(a)`. -/
def partlyUsed : Query :=
  ⟨["x", "y", "z"], [⟨"R", [.var "x", .var "y"]⟩, ⟨"S", [.var "x"]⟩, ⟨"T", [.const "a"]⟩],
    fault?_eq_none_iff.1 (by decide)⟩

/-- `(∃x (∃y R(x, y) ∧ S(x)) ∧ T(a))`, without a quantifier for `z`. -/
theorem formula_faithful_partlyUsed :
    partlyUsed.checkHierarchical = .ok () ∧
      ∃ f, partlyUsed.formula = .ok f ∧
        f = .and (.exist "x" (.and (.exist "y" (.atom ⟨"R", [.var "x", .var "y"]⟩))
          (.atom ⟨"S", [.var "x"]⟩))) (.atom ⟨"T", [.const "a"]⟩) ∧
        f.isClosed = true ∧ f.atoms.Perm partlyUsed.atoms ∧
        (f.binders.count "x", f.binders.count "y", f.binders.count "z") = (1, 1, 0) ∧
        ∀ world : World, f.Holds [] world id ↔ partlyUsed.Holds [] world := by
  have hierarchical : partlyUsed.checkHierarchical = .ok () := by decide
  obtain ⟨f, made, closed, -, -, atoms, once, -, holds⟩ := formula_faithful partlyUsed hierarchical
  have computed : partlyUsed.formula.toOption = some (.and (.exist "x" (.and
      (.exist "y" (.atom ⟨"R", [.var "x", .var "y"]⟩)) (.atom ⟨"S", [.var "x"]⟩)))
      (.atom ⟨"T", [.const "a"]⟩)) := by decide +kernel
  rw [made] at computed
  refine ⟨hierarchical, f, made, Option.some.inj computed, closed, atoms, ?_,
    fun world => holds [] world id⟩
  rw [once, once, once]
  decide

end Query

end SafePlan
