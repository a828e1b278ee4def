/-
# SafePlan.Interner — numbers for constants

An interner keeps each name once and numbers the names in the order of their
arrival. It reads both ways: the number of a name, and the name at a number.
Numbers have 32 bits. The first `2 ^ 32` names have a number of their own; a
further name would begin again at zero, so reading back is right as long as no
more have arrived (`name?_eq_some_iff`). The two tables say the same at any time
(`numbered`), and a name keeps its number for good (`id?_intern_of_known`).
-/
import SafePlan.Name
import SafePlan.Table

set_option autoImplicit false

namespace SafePlan

structure Interner where
  ids : Table Name UInt32
  /-- The names by number. -/
  names : List Name
  numbered : ids.entries = names.zipIdx.map fun (name, place) => (name, UInt32.ofNat place)

namespace Interner

def empty : Interner := ⟨.empty, [], rfl⟩

/-- The number of a name, if it has arrived. -/
def id? (i : Interner) (name : Name) : Option UInt32 := i.ids.get? name

/-- The numbers of names that have all arrived. -/
def ids? (i : Interner) (names : List Name) : Option (List UInt32) := names.mapM i.id?

def name? (i : Interner) (id : UInt32) : Option Name := i.names[id.toNat]?

/-- One more name, with the next number. -/
def extend (i : Interner) (name : Name) (unknown : i.ids.get? name = none) : Interner where
  ids := i.ids.insert name (UInt32.ofNat i.names.length)
  names := i.names ++ [name]
  numbered := by
    rw [Table.entries_insert_of_fresh unknown, i.numbered, List.zipIdx_append, List.map_append]
    simp

/-- The number of a name, which is given one if it has none. -/
def intern (i : Interner) (name : Name) : UInt32 × Interner :=
  match unknown : i.ids.get? name with
  | some id => (id, i)
  | none => (UInt32.ofNat i.names.length, i.extend name unknown)

/-- The numbers of several names, one after the other. -/
def internAll : List Name → Interner → List UInt32 × Interner
  | [], i => ([], i)
  | name :: rest, i =>
    let (id, i) := i.intern name
    let (ids, i) := internAll rest i
    (id :: ids, i)

/-! ## What numbers are given -/

variable {i : Interner} {name : Name} {id : UInt32}

/-- A name's number is its place among the names. -/
theorem id?_eq_some_iff :
    i.id? name = some id ↔ ∃ place, i.names[place]? = some name ∧ id = UInt32.ofNat place := by
  rw [id?, Table.get?_eq_some_iff, i.numbered, List.mem_map]
  simp only [Prod.exists, List.mk_mem_zipIdx_iff_getElem?, Prod.mk.injEq]
  constructor
  · rintro ⟨_, place, stands, rfl, rfl⟩
    exact ⟨place, stands, rfl⟩
  · rintro ⟨place, stands, rfl⟩
    exact ⟨name, place, stands, rfl, rfl⟩

theorem keys_ids (i : Interner) : i.ids.keys = i.names := by
  rw [Table.keys, i.numbered, List.map_map]
  exact i.names.zipIdx_map_fst 0

theorem nodup_names (i : Interner) : i.names.Nodup := by
  rw [← i.keys_ids]
  exact i.ids.distinct

theorem mem_names_iff : name ∈ i.names ↔ ∃ id, i.id? name = some id := by
  rw [← i.keys_ids]
  exact Table.mem_keys_iff

theorem name?_of_id? (few : i.names.length ≤ UInt32.size) (known : i.id? name = some id) :
    i.name? id = some name := by
  obtain ⟨place, stands, rfl⟩ := id?_eq_some_iff.1 known
  obtain ⟨within, -⟩ := List.getElem?_eq_some_iff.1 stands
  rw [name?, UInt32.toNat_ofNat', Nat.mod_eq_of_lt (Nat.lt_of_lt_of_le within few), stands]

/-- **Reading back is right** while there are numbers enough. -/
theorem name?_eq_some_iff (few : i.names.length ≤ UInt32.size) :
    i.name? id = some name ↔ i.id? name = some id := by
  refine ⟨fun stands => id?_eq_some_iff.2 ⟨id.toNat, stands, ?_⟩, name?_of_id? few⟩
  rw [UInt32.ofNat_toNat]

/-! ## Interning -/

theorem id?_intern (i : Interner) (name : Name) :
    (i.intern name).2.id? name = some (i.intern name).1 := by
  rw [intern]
  split <;> rename_i found
  · exact found
  · rw [id?, extend, Table.get?_insert, if_pos rfl]

/-- A name keeps its number. -/
theorem id?_intern_of_known (other : Name) (known : i.id? name = some id) :
    (i.intern other).2.id? name = some id := by
  rw [intern]
  split <;> rename_i found
  · exact known
  · have different : name ≠ other := by
      rintro rfl
      rw [id?, found] at known
      cases known
    rw [id?, extend, Table.get?_insert, if_neg different]
    exact known

theorem mem_names_intern {other : Name} :
    name ∈ (i.intern other).2.names ↔ name = other ∨ name ∈ i.names := by
  rw [intern]
  split <;> rename_i found
  · refine ⟨.inr, ?_⟩
    rintro (rfl | listed)
    · exact mem_names_iff.2 ⟨_, found⟩
    · exact listed
  · simp [extend, or_comm]

theorem id?_internAll_of_known (others : List Name) (known : i.id? name = some id) :
    (internAll others i).2.id? name = some id := by
  induction others generalizing i with
  | nil => exact known
  | cons first rest ih => exact ih (id?_intern_of_known first known)

theorem mem_names_internAll {others : List Name} :
    name ∈ (internAll others i).2.names ↔ name ∈ others ∨ name ∈ i.names := by
  induction others generalizing i with
  | nil => simp [internAll]
  | cons first rest ih =>
    rw [internAll, ih, mem_names_intern, List.mem_cons]
    exact or_left_comm.trans or_assoc.symm

end Interner

end SafePlan
