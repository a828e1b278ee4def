/-
# SafePlan.Table — finite maps as lists of entries

A list of entries in which every key stands once. A key that is set again keeps
its place, a new one comes last; beyond that the order has no meaning, and what a
table says is said by `get?` alone.
-/
set_option autoImplicit false

namespace SafePlan

/-! ## Entries -/

section Entries

variable {κ ν : Type} [DecidableEq κ]

/-- Put a value at a key, in the place of an earlier one. -/
def record (key : κ) (value : ν) : List (κ × ν) → List (κ × ν)
  | [] => [(key, value)]
  | entry :: rest =>
    if entry.1 = key then (key, value) :: rest else entry :: record key value rest

variable {key : κ} {value : ν} {entries : List (κ × ν)}

theorem mem_record {entry : κ × ν} (listed : entry ∈ record key value entries) :
    entry = (key, value) ∨ entry ∈ entries := by
  induction entries with
  | nil => simpa [record] using listed
  | cons first rest ih =>
    rw [record] at listed
    split at listed
    · rcases List.mem_cons.1 listed with rfl | later
      · exact .inl rfl
      · exact .inr (List.mem_cons_of_mem _ later)
    · rcases List.mem_cons.1 listed with rfl | later
      · exact .inr (by simp)
      · exact (ih later).imp id (List.mem_cons_of_mem _)

theorem nodup_record (distinct : (entries.map Prod.fst).Nodup) :
    ((record key value entries).map Prod.fst).Nodup := by
  induction entries with
  | nil => simp [record]
  | cons first rest ih =>
    rw [List.map_cons, List.nodup_cons] at distinct
    rw [record]
    split <;> rename_i here
    · rw [List.map_cons, List.nodup_cons, ← here]
      exact distinct
    · rw [List.map_cons, List.nodup_cons]
      refine ⟨fun again => ?_, ih distinct.2⟩
      obtain ⟨entry, listed, same⟩ := List.mem_map.1 again
      rcases mem_record listed with rfl | kept
      · exact here same.symm
      · exact distinct.1 (List.mem_map.2 ⟨entry, kept, same⟩)

/-- A new key comes last. -/
theorem record_of_fresh (fresh : key ∉ entries.map Prod.fst) :
    record key value entries = entries ++ [(key, value)] := by
  induction entries with
  | nil => rfl
  | cons first rest ih =>
    rw [List.map_cons, List.mem_cons, not_or] at fresh
    rw [record, if_neg (Ne.symm fresh.1), ih fresh.2, List.cons_append]

end Entries

/-! ## Tables -/

structure Table (κ ν : Type) where
  entries : List (κ × ν)
  distinct : (entries.map Prod.fst).Nodup

namespace Table

variable {κ ν : Type}

def empty : Table κ ν := ⟨[], List.nodup_nil⟩

def keys (t : Table κ ν) : List κ := t.entries.map Prod.fst

/-- The number of keys. -/
def size (t : Table κ ν) : Nat := t.entries.length

variable [DecidableEq κ]

def get? (t : Table κ ν) (key : κ) : Option ν := (t.entries.find? (·.1 = key)).map Prod.snd

def insert (t : Table κ ν) (key : κ) (value : ν) : Table κ ν :=
  ⟨record key value t.entries, nodup_record t.distinct⟩

variable {t : Table κ ν} {key : κ} {value : ν}

@[simp] theorem get?_empty : (empty : Table κ ν).get? key = none := rfl

theorem get?_eq_some_iff : t.get? key = some value ↔ (key, value) ∈ t.entries := by
  rcases t with ⟨entries, distinct⟩
  simp only [get?]
  induction entries with
  | nil => simp
  | cons first rest ih =>
    rw [List.map_cons, List.nodup_cons] at distinct
    rw [List.find?_cons, List.mem_cons]
    split <;> rename_i here
    · rw [decide_eq_true_eq] at here
      constructor
      · intro found
        exact .inl (Prod.ext here.symm (Option.some.inj found).symm)
      · rintro (rfl | later)
        · rfl
        · exact absurd (List.mem_map.2 ⟨_, later, here.symm⟩) distinct.1
    · rw [ih distinct.2]
      refine ⟨.inr, ?_⟩
      rintro (rfl | later)
      · simp at here
      · exact later

theorem get?_eq_none_iff : t.get? key = none ↔ key ∉ t.keys := by
  rw [get?, Option.map_eq_none_iff, List.find?_eq_none, keys, List.mem_map]
  constructor
  · rintro absent ⟨entry, listed, rfl⟩
    exact absent entry listed (decide_eq_true rfl)
  · intro absent entry listed here
    exact absent ⟨entry, listed, of_decide_eq_true here⟩

theorem mem_keys_iff : key ∈ t.keys ↔ ∃ value, t.get? key = some value := by
  rw [← Option.isSome_iff_exists, Option.isSome_iff_ne_none, ne_eq, get?_eq_none_iff,
    Decidable.not_not]

theorem entries_insert_of_fresh (fresh : t.get? key = none) :
    (t.insert key value).entries = t.entries ++ [(key, value)] :=
  record_of_fresh (get?_eq_none_iff.1 fresh)

/-- **The last value set is the one found.** -/
theorem get?_insert (t : Table κ ν) (key : κ) (value : ν) (other : κ) :
    (t.insert key value).get? other = if other = key then some value else t.get? other := by
  rcases t with ⟨entries, distinct⟩
  simp only [get?, insert]
  clear distinct
  induction entries with
  | nil =>
    by_cases same : other = key
    · simp [record, same]
    · simp [record, same, Ne.symm same]
  | cons first rest ih =>
    rw [record]
    split <;> rename_i here
    · by_cases same : other = key
      · simp [same]
      · have passed : ¬ first.1 = other := fun at_other => same (at_other.symm.trans here)
        simp [same, Ne.symm same, passed]
    · by_cases found : first.1 = other
      · have different : ¬ other = key := fun same => here (found.trans same)
        simp [found, different]
      · simpa [found] using ih

theorem mem_keys_insert {other : κ} :
    other ∈ (t.insert key value).keys ↔ other = key ∨ other ∈ t.keys := by
  rw [mem_keys_iff, mem_keys_iff, get?_insert]
  split <;> rename_i same <;> simp [same]

end Table

end SafePlan
