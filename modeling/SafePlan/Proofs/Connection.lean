/-
# SafePlan.Proofs.Connection — groups are the connected components

Two atoms are linked when they share a linking variable, and connected when a
chain of links leads from one to the other (`Connected`, over positions in the
list). `components` decides connection with disjoint sets; here that is shown
to be the same thing (`classOf_eq_iff`).

What the rest of the theory uses of groups follows:

* no linking variable occurs in two groups (`pairwise_groups`), so that they are
  one way to part the atoms (`Parted`), and each group is a sublist of the atoms
  (`sublist_of_mem_groups`);
* a property that passes from atom to linked atom passes through a single group
  (`forall_of_single_group`);
* groups depend on nothing but the linking variables of the atoms, so changes
  elsewhere leave them alone (`groups_map`).
-/
import SafePlan.Components
import SafePlan.Proofs.Forest
import Mathlib.Data.List.Pairwise

set_option autoImplicit false

namespace SafePlan

/-! ## Grouping by a key -/

section Grouping

variable {α β κ κ' : Type} [DecidableEq κ] [DecidableEq κ']

theorem key_eq_of_mem_groupOn {key : α → κ} {elements group : List α}
    (listed : group ∈ groupOn key elements) {a b : α} (memberA : a ∈ group)
    (memberB : b ∈ group) : key a = key b := by
  fun_induction groupOn key elements with
  | case1 => simp at listed
  | case2 first rest ih =>
    rcases List.mem_cons.1 listed with rfl | later
    · have here : ∀ c ∈ first :: withKey key (key first) rest, key c = key first := by
        intro c member
        rcases List.mem_cons.1 member with rfl | others
        · rfl
        · simpa [withKey] using (List.mem_filter.1 others).2
      exact (here a memberA).trans (here b memberB).symm
    · exact ih later

theorem mem_of_mem_groupOn {key : α → κ} {elements group : List α}
    (listed : group ∈ groupOn key elements) {a : α} (member : a ∈ group) : a ∈ elements :=
  (flatten_groupOn_perm key elements).mem_iff.1 (List.mem_flatten_of_mem listed member)

/-- Different groups have different keys. -/
theorem pairwise_groupOn (key : α → κ) (elements : List α) :
    (groupOn key elements).Pairwise fun group other => ∀ a ∈ group, ∀ b ∈ other, key a ≠ key b := by
  fun_induction groupOn key elements with
  | case1 => exact List.Pairwise.nil
  | case2 first rest ih =>
    refine List.pairwise_cons.2 ⟨fun other listed a memberA b memberB => ?_, ih⟩
    have apart : b ∈ withoutKey key (key first) rest := mem_of_mem_groupOn listed memberB
    have differs : key b ≠ key first := by simpa [withoutKey] using (List.mem_filter.1 apart).2
    rcases List.mem_cons.1 memberA with rfl | others
    · exact differs.symm
    · have same : key a = key first := by simpa [withKey] using (List.mem_filter.1 others).2
      rw [same]
      exact differs.symm

/-- A group has all the elements of its key. -/
theorem mem_group_of_key_eq {key : α → κ} {elements group : List α}
    (listed : group ∈ groupOn key elements) {a b : α} (memberA : a ∈ group)
    (listedB : b ∈ elements) (same : key b = key a) : b ∈ group := by
  fun_induction groupOn key elements with
  | case1 => simp at listed
  | case2 first rest ih =>
    rcases List.mem_cons.1 listed with rfl | later
    · have here : key a = key first := by
        rcases List.mem_cons.1 memberA with rfl | others
        · rfl
        · simpa [withKey] using (List.mem_filter.1 others).2
      rcases List.mem_cons.1 listedB with rfl | inRest
      · exact List.mem_cons_self
      · refine List.mem_cons_of_mem _ (List.mem_filter.2 ⟨inRest, ?_⟩)
        simpa using same.trans here
    · have apart : a ∈ withoutKey key (key first) rest := mem_of_mem_groupOn later memberA
      have differs : key a ≠ key first := by simpa [withoutKey] using (List.mem_filter.1 apart).2
      rcases List.mem_cons.1 listedB with rfl | inRest
      · exact absurd same.symm differs
      · refine ih later (List.mem_filter.2 ⟨inRest, ?_⟩)
        simpa [same] using differs

theorem exists_group_of_key_eq {key : α → κ} {elements : List α} {a b : α}
    (listedA : a ∈ elements) (listedB : b ∈ elements) (same : key a = key b) :
    ∃ group ∈ groupOn key elements, a ∈ group ∧ b ∈ group := by
  obtain ⟨group, listed, member⟩ :=
    List.mem_flatten.1 ((flatten_groupOn_perm key elements).mem_iff.2 listedA)
  exact ⟨group, listed, member, mem_group_of_key_eq listed member listedB same.symm⟩

/-- Elements of one key are one group. -/
theorem length_groupOn_of_const {key : α → κ} {elements : List α} (nonempty : elements ≠ [])
    (same : ∀ a ∈ elements, ∀ b ∈ elements, key a = key b) : (groupOn key elements).length = 1 := by
  obtain ⟨first, rest, rfl⟩ := List.exists_cons_of_ne_nil nonempty
  have none : withoutKey key (key first) rest = [] := by
    refine List.filter_eq_nil_iff.2 fun b member => ?_
    simpa using same b (List.mem_cons_of_mem _ member) first List.mem_cons_self
  rw [groupOn, none, groupOn, List.length_singleton]

/-- The first element of each group comes before the elements of the later groups. -/
theorem pairwise_head_groupOn {before : α → α → Prop} (key : α → κ) {elements : List α}
    (ordered : elements.Pairwise before) :
    (groupOn key elements).Pairwise fun group later =>
      ∀ a ∈ group.head?, ∀ b ∈ later, before a b := by
  fun_induction groupOn key elements with
  | case1 => exact List.Pairwise.nil
  | case2 first rest ih =>
    obtain ⟨least, ordered'⟩ := List.pairwise_cons.1 ordered
    refine List.pairwise_cons.2 ⟨fun later listed a isFirst b member => ?_,
      ih (ordered'.sublist List.filter_sublist)⟩
    obtain rfl : first = a := by simpa using isFirst
    exact least b (List.filter_sublist.subset (mem_of_mem_groupOn listed member))

theorem sublist_of_mem_groupOn {key : α → κ} {elements group : List α}
    (listed : group ∈ groupOn key elements) : group.Sublist elements := by
  fun_induction groupOn key elements with
  | case1 => simp at listed
  | case2 first rest ih =>
    rcases List.mem_cons.1 listed with rfl | later
    · exact List.Sublist.cons_cons first List.filter_sublist
    · exact ((ih later).trans List.filter_sublist).cons first

/-- Only which keys are equal matters. -/
theorem groupOn_congr {key : α → κ} {key' : α → κ'} {elements : List α}
    (same : ∀ a ∈ elements, ∀ b ∈ elements, key a = key b ↔ key' a = key' b) :
    groupOn key elements = groupOn key' elements := by
  fun_induction groupOn key elements with
  | case1 => rw [groupOn]
  | case2 first rest ih =>
    have within : withKey key (key first) rest = withKey key' (key' first) rest := by
      refine List.filter_congr fun b member => ?_
      simp only [same b (List.mem_cons_of_mem _ member) first (by simp)]
    have without : withoutKey key (key first) rest = withoutKey key' (key' first) rest := by
      refine List.filter_congr fun b member => ?_
      simp only [ne_eq, same b (List.mem_cons_of_mem _ member) first (by simp)]
    have kept : ∀ b ∈ withoutKey key (key first) rest, b ∈ first :: rest := fun b member =>
      List.mem_cons_of_mem _ (List.filter_sublist.subset member)
    rw [ih fun a memberA b memberB => same a (kept a memberA) b (kept b memberB), within, without]
    conv => rhs; rw [groupOn]

theorem groupOn_map (key : β → κ) (change : α → β) (elements : List α) :
    groupOn key (elements.map change) = (groupOn (key ∘ change) elements).map (List.map change) := by
  fun_induction groupOn (key ∘ change) elements with
  | case1 => rw [List.map_nil, groupOn, List.map_nil]
  | case2 first rest ih =>
    have without : withoutKey key (key (change first)) (rest.map change) =
        (withoutKey (key ∘ change) ((key ∘ change) first) rest).map change := by
      simp [withoutKey, List.filter_map, Function.comp_def]
    rw [List.map_cons, groupOn, without, ih]
    simp [withKey, List.filter_map, Function.comp_def]

theorem groupOn_of_injective {key : α → κ} {elements : List α}
    (distinct : elements.Pairwise fun a b => key a ≠ key b) :
    groupOn key elements = elements.map fun a => [a] := by
  induction elements with
  | nil => rw [groupOn, List.map_nil]
  | cons first rest ih =>
    obtain ⟨apart, distinct'⟩ := List.pairwise_cons.1 distinct
    have alone : withKey key (key first) rest = [] := by
      refine List.filter_eq_nil_iff.2 fun b member => ?_
      simpa using (apart b member).symm
    have others : withoutKey key (key first) rest = rest := by
      refine List.filter_eq_self.2 fun b member => ?_
      simpa using (apart b member).symm
    rw [groupOn, alone, others, ih distinct', List.map_cons]

end Grouping

/-! ## Connection -/

section Connection

variable {linking linking' : Name → Bool} {atoms : List Atom}

/-- The atoms at two positions share a linking variable. -/
def Linked (linking : Name → Bool) (atoms : List Atom) (i j : Nat) : Prop :=
  ∃ x a b, linking x = true ∧ atoms[i]? = some a ∧ atoms[j]? = some b ∧ x ∈ a.vars ∧ x ∈ b.vars

/-- A chain of links leads from one position to the other. -/
def Connected (linking : Name → Bool) (atoms : List Atom) : Nat → Nat → Prop :=
  Relation.EqvGen (Linked linking atoms)

theorem mem_sharings {first i : Fin atoms.length} :
    (first, i) ∈ sharings linking atoms ↔
      ∃ x ∈ (atoms.get i).vars, linking x = true ∧
        atoms.findFinIdx? (·.mentions x) = some first := by
  simp only [sharings, List.mem_flatMap, List.mem_filterMap, List.mem_filter, Option.map_eq_some_iff,
    Prod.mk.injEq, List.mem_finRange, true_and]
  constructor
  · rintro ⟨i', x, ⟨occurs, links⟩, first', found, rfl, rfl⟩
    exact ⟨x, occurs, links, found⟩
  · rintro ⟨x, occurs, links, found⟩
    exact ⟨i, x, ⟨occurs, links⟩, first, found, rfl, rfl⟩

/-- The pairs that are united join exactly the connected atoms. -/
theorem joined_sharings_iff {i j : Fin atoms.length} :
    DisjointSets.Joined (sharings linking atoms) i j ↔ Connected linking atoms i j := by
  constructor
  · intro joined
    induction joined with
    | rel first i listed =>
      obtain ⟨x, occurs, links, found⟩ := mem_sharings.1 listed
      have mentions := (List.findFinIdx?_eq_some_iff.1 found).1
      exact .rel _ _ ⟨x, atoms[first], atoms[i], links, by simp, by simp, by simpa using mentions,
        occurs⟩
    | refl i => exact .refl _
    | symm i j _ ih => exact .symm _ _ ih
    | trans i j k _ _ ihij ihjk => exact .trans _ _ _ ihij ihjk
  · -- positions outside the list are in no set, and no link leads to them
    let class? : Nat → Option (Fin atoms.length) := fun i =>
      if inside : i < atoms.length then
        some ((DisjointSets.ofPairs (sharings linking atoms)).root ⟨i, inside⟩)
      else none
    have agree : ∀ i j, Linked linking atoms i j → class? i = class? j := by
      rintro i j ⟨x, a, b, links, atI, atJ, inA, inB⟩
      obtain ⟨insideI, rfl⟩ := List.getElem?_eq_some_iff.1 atI
      obtain ⟨insideJ, rfl⟩ := List.getElem?_eq_some_iff.1 atJ
      obtain ⟨first, found⟩ : ∃ first, atoms.findFinIdx? (·.mentions x) = some first := by
        rw [← Option.isSome_iff_exists, List.isSome_findFinIdx?, List.any_eq_true]
        exact ⟨_, List.getElem_mem insideI, by simpa using inA⟩
      have sharesI : DisjointSets.Joined (sharings linking atoms) first ⟨i, insideI⟩ :=
        .rel _ _ (mem_sharings.2 ⟨x, inA, links, found⟩)
      have sharesJ : DisjointSets.Joined (sharings linking atoms) first ⟨j, insideJ⟩ :=
        .rel _ _ (mem_sharings.2 ⟨x, inB, links, found⟩)
      simp only [class?, dif_pos insideI, dif_pos insideJ, Option.some.injEq]
      exact (DisjointSets.root_ofPairs_eq_iff ..).2 (.trans _ _ _ (.symm _ _ sharesI) sharesJ)
    intro connected
    have sameClass := eq_of_eqvGen agree connected
    simp only [class?, i.2, j.2, dif_pos, Option.some.injEq] at sameClass
    exact (DisjointSets.root_ofPairs_eq_iff ..).1 sameClass

/-- The representative of an atom's class. -/
def classOf (linking : Name → Bool) (atoms : List Atom) (i : Fin atoms.length) :
    Fin atoms.length :=
  ((DisjointSets.ofPairs (sharings linking atoms)).find i).1

theorem components_eq (linking : Name → Bool) (atoms : List Atom) :
    components linking atoms = groupOn (classOf linking atoms) (List.finRange atoms.length) := rfl

/-- **Disjoint sets decide connection.** -/
theorem classOf_eq_iff {i j : Fin atoms.length} :
    classOf linking atoms i = classOf linking atoms j ↔ Connected linking atoms i j :=
  (DisjointSets.find_ofPairs_eq_iff ..).trans joined_sharings_iff

/-! ## Groups -/

theorem sublist_of_mem_groups {group : List Atom} (listed : group ∈ groups linking atoms) :
    group.Sublist atoms := by
  obtain ⟨positions, inComponents, rfl⟩ := List.mem_map.1 listed
  have ordered := (sublist_of_mem_groupOn inComponents).map fun i => atoms[i]
  rwa [map_getElem_finRange] at ordered

theorem groups_eq_nil_iff : groups linking atoms = [] ↔ atoms = [] := by
  constructor
  · intro none
    have perm := flatten_groups_perm linking atoms
    rw [none] at perm
    exact perm.symm.eq_nil
  · rintro rfl
    simp [groups, components, groupOn]

/-- A list of atoms in at most one group is in one, unless it is empty. -/
theorem single_group (nonempty : atoms ≠ []) (few : ¬ 1 < (groups linking atoms).length) :
    (groups linking atoms).length = 1 := by
  have some : 0 < (groups linking atoms).length :=
    List.length_pos_iff.2 (mt groups_eq_nil_iff.1 nonempty)
  omega

theorem ne_nil_of_single_group (single : (groups linking atoms).length = 1) : atoms ≠ [] := by
  rintro rfl
  rw [groups_eq_nil_iff.2 rfl] at single
  cases single

/-- No linking variable occurs in two groups. -/
theorem pairwise_groups (linking : Name → Bool) (atoms : List Atom) :
    (groups linking atoms).Pairwise fun group other =>
      ∀ a ∈ group, ∀ b ∈ other, ∀ x, linking x = true → x ∈ a.vars → x ∉ b.vars := by
  refine List.pairwise_map.2 ((pairwise_groupOn _ _).imp ?_)
  intro group other apart a memberA b memberB x links inA inB
  obtain ⟨i, inGroup, rfl⟩ := List.mem_map.1 memberA
  obtain ⟨j, inOther, rfl⟩ := List.mem_map.1 memberB
  refine apart i inGroup j inOther (classOf_eq_iff.2 (.rel _ _ ?_))
  exact ⟨x, atoms[i], atoms[j], links, by simp, by simp, inA, inB⟩

/-! ## Parts

Groups are the finest way to take atoms apart between which no linking variable
is shared. Coarser ways serve as well for what follows of it.
-/

/-- The parts hold the atoms, each once, and no linking variable occurs in two. -/
structure Parted (linking : Name → Bool) (atoms : List Atom) (parts : List (List Atom)) :
    Prop where
  perm : parts.flatten.Perm atoms
  apart : parts.Pairwise fun part other =>
    ∀ a ∈ part, ∀ b ∈ other, ∀ x, linking x = true → x ∈ a.vars → x ∉ b.vars

theorem parted_groups (linking : Name → Bool) (atoms : List Atom) :
    Parted linking atoms (groups linking atoms) :=
  ⟨flatten_groups_perm linking atoms, pairwise_groups linking atoms⟩

section Parts

variable {parts : List (List Atom)} {part : List Atom}

theorem Parted.subset (parted : Parted linking atoms parts) (listed : part ∈ parts) :
    part ⊆ atoms :=
  fun _ member => parted.perm.mem_iff.1 (List.mem_flatten_of_mem listed member)

/-- Atoms that share a linking variable are in the same part. -/
theorem Parted.mem_of_shared (parted : Parted linking atoms parts) (listed : part ∈ parts)
    {a b : Atom} {x : Name} (links : linking x = true) (memberA : a ∈ part) (inA : x ∈ a.vars)
    (listedB : b ∈ atoms) (inB : x ∈ b.vars) : b ∈ part := by
  obtain ⟨other, listedOther, memberB⟩ := List.mem_flatten.1 (parted.perm.mem_iff.2 listedB)
  by_contra missing
  have different : part ≠ other := by
    rintro rfl
    exact missing memberB
  -- the parts are listed in one order, and no linking variable is shared either way
  have symm : Std.Symm fun part other : List Atom =>
      ∀ a ∈ part, ∀ b ∈ other, ∀ x, linking x = true → x ∈ a.vars → x ∉ b.vars :=
    ⟨fun _ _ apart b memberB a memberA x links inB inA => apart a memberA b memberB x links inA inB⟩
  have apart := parted.apart.forall listed listedOther different
  exact apart a memberA b memberB x links inA inB

/-- Where no relation is in two atoms, none is in two parts. -/
theorem Parted.pairwise_relations (parted : Parted linking atoms parts)
    (unrepeated : (atoms.map Atom.relation).Nodup) :
    parts.Pairwise fun part other => ∀ a ∈ part, ∀ b ∈ other, a.relation ≠ b.relation := by
  have different : atoms.Pairwise fun a b => a.relation ≠ b.relation := List.pairwise_map.1 unrepeated
  have inParts := (parted.perm.pairwise_iff fun different => different.symm).2 different
  exact (List.pairwise_flatten.1 inParts).2

theorem Parted.nodup_relations (parted : Parted linking atoms parts)
    (unrepeated : (atoms.map Atom.relation).Nodup) (listed : part ∈ parts) :
    (part.map Atom.relation).Nodup := by
  have inParts := (parted.perm.map Atom.relation).nodup_iff.2 unrepeated
  exact inParts.sublist ((List.sublist_flatten_of_mem listed).map Atom.relation)

end Parts

/-- **One group is connected.** What holds of one atom and passes along links
holds of all. -/
theorem forall_of_single_group (single : (groups linking atoms).length = 1)
    {holds : Atom → Prop} {start : Atom} (listed : start ∈ atoms) (starts : holds start)
    (passes : ∀ a ∈ atoms, ∀ b ∈ atoms, ∀ x, linking x = true → x ∈ a.vars → x ∈ b.vars →
      holds a → holds b) : ∀ b ∈ atoms, holds b := by
  have allJoined : ∀ i j : Fin atoms.length, Connected linking atoms i j := by
    intro i j
    rw [groups, List.length_map] at single
    obtain ⟨group, only⟩ := List.length_eq_one_iff.1 single
    have member : ∀ k, k ∈ group := by
      intro k
      have perm := flatten_groupOn_perm (classOf linking atoms) (List.finRange atoms.length)
      rw [← components_eq, only] at perm
      simpa using perm.mem_iff.2 (List.mem_finRange k)
    exact classOf_eq_iff.1 (key_eq_of_mem_groupOn (by rw [← components_eq, only]; simp)
      (member i) (member j))
  have along : ∀ i j, Linked linking atoms i j →
      (∀ a, atoms[i]? = some a → holds a) = ∀ b, atoms[j]? = some b → holds b := by
    rintro i j ⟨x, a, b, links, atI, atJ, inA, inB⟩
    have inAtomsA := List.mem_of_getElem? atI
    have inAtomsB := List.mem_of_getElem? atJ
    rw [atI, atJ]
    refine propext ⟨?_, ?_⟩
    · rintro holdsA c ⟨⟩
      exact passes a inAtomsA b inAtomsB x links inA inB (holdsA a rfl)
    · rintro holdsB c ⟨⟩
      exact passes b inAtomsB a inAtomsA x links inB inA (holdsB b rfl)
  intro b member
  obtain ⟨i, insideI, rfl⟩ := List.getElem_of_mem listed
  obtain ⟨j, insideJ, rfl⟩ := List.getElem_of_mem member
  have transfer := eq_of_eqvGen along (allJoined ⟨i, insideI⟩ ⟨j, insideJ⟩)
  refine transfer.mp ?_ _ (by simp)
  rintro a atI
  rw [List.getElem?_eq_getElem insideI] at atI
  obtain rfl := Option.some.inj atI
  exact starts

theorem linked_map {change : Atom → Atom}
    (same : ∀ a ∈ atoms, ∀ x, linking' x = true ∧ x ∈ (change a).vars ↔
      linking x = true ∧ x ∈ a.vars) :
    Linked linking' (atoms.map change) = Linked linking atoms := by
  funext i j
  refine propext ⟨?_, ?_⟩
  · rintro ⟨x, a', b', links, atI, atJ, inA, inB⟩
    rw [List.getElem?_map, Option.map_eq_some_iff] at atI atJ
    obtain ⟨a, atI, rfl⟩ := atI
    obtain ⟨b, atJ, rfl⟩ := atJ
    have occursA := (same a (List.mem_of_getElem? atI) x).1 ⟨links, inA⟩
    have occursB := (same b (List.mem_of_getElem? atJ) x).1 ⟨links, inB⟩
    exact ⟨x, a, b, occursA.1, atI, atJ, occursA.2, occursB.2⟩
  · rintro ⟨x, a, b, links, atI, atJ, inA, inB⟩
    have occursA := (same a (List.mem_of_getElem? atI) x).2 ⟨links, inA⟩
    have occursB := (same b (List.mem_of_getElem? atJ) x).2 ⟨links, inB⟩
    exact ⟨x, change a, change b, occursA.1, by simp [atI], by simp [atJ], occursA.2, occursB.2⟩

/-- **Only linking variables matter.** A change of the atoms that keeps which
linking variables occur in each keeps the groups. -/
theorem groups_map {change : Atom → Atom}
    (same : ∀ a ∈ atoms, ∀ x, linking' x = true ∧ x ∈ (change a).vars ↔
      linking x = true ∧ x ∈ a.vars) :
    groups linking' (atoms.map change) = (groups linking atoms).map (List.map change) := by
  have sameLength : atoms.length = (atoms.map change).length := by simp
  have positions : List.finRange (atoms.map change).length =
      (List.finRange atoms.length).map (Fin.cast sameLength) := by
    apply List.ext_getElem <;> simp
  have sameClasses : components linking' (atoms.map change) =
      (components linking atoms).map (List.map (Fin.cast sameLength)) := by
    rw [components_eq, components_eq, positions, groupOn_map]
    refine congrArg _ (groupOn_congr fun i _ j _ => ?_)
    rw [Function.comp_apply, Function.comp_apply, classOf_eq_iff, classOf_eq_iff, Connected,
      linked_map same]
    rfl
  rw [groups, groups, sameClasses, List.map_map, List.map_map]
  refine List.map_congr_left fun group _ => ?_
  simp [Function.comp_def]

/-- Without linking variables every atom is a group of its own. -/
theorem groups_of_unlinked (unlinked : ∀ a ∈ atoms, ∀ x ∈ a.vars, linking x = false) :
    groups linking atoms = atoms.map fun a => [a] := by
  have alone : ∀ i j, Linked linking atoms i j → i = j := by
    rintro i j ⟨x, a, b, links, atI, -, inA, -⟩
    rw [unlinked a (List.mem_of_getElem? atI) x inA] at links
    cases links
  have distinct : (List.finRange atoms.length).Pairwise fun i j =>
      classOf linking atoms i ≠ classOf linking atoms j :=
    (List.nodup_finRange _).imp fun different same =>
      different (Fin.ext (eq_of_eqvGen (f := id) alone (classOf_eq_iff.1 same)))
  rw [groups, components_eq, groupOn_of_injective distinct, List.map_map]
  conv => rhs; rw [← map_getElem_finRange atoms]
  rw [List.map_map]
  rfl

end Connection

end SafePlan
