namespace Interop

/-- A finite map from names to values. -/
structure Table (α : Type) where
  /-- The entries, a name's first entry being the one that counts. -/
  entries : List (String × α) := []
deriving Repr

namespace Table

variable {α : Type}

/-- The table without entries. -/
def empty : Table α := {}

/-- The value stored under `name`. -/
def get? (t : Table α) (name : String) : Option α :=
  t.entries.lookup name

/-- Whether `name` has an entry. -/
def contains (t : Table α) (name : String) : Bool :=
  (t.get? name).isSome

/-- The number of entries. -/
def size (t : Table α) : Nat :=
  t.entries.length

/-- Stores `value` under `name` in a list of entries, in the place of an earlier entry if there is
one. -/
def put (name : String) (value : α) : List (String × α) → List (String × α)
  | [] => [(name, value)]
  | (n, v) :: rest => if n = name then (name, value) :: rest else (n, v) :: put name value rest

/-- Stores `value` under `name`, replacing what was stored there. -/
def insert (t : Table α) (name : String) (value : α) : Table α :=
  ⟨put name value t.entries⟩

/-- Keeps the entries whose value satisfies `keep`. -/
def filter (t : Table α) (keep : α → Bool) : Table α :=
  ⟨t.entries.filter fun e => keep e.2⟩

/-- The table of a list of entries, a later entry replacing an earlier one of its name. -/
def ofList (entries : List (String × α)) : Table α :=
  entries.foldl (fun t e => t.insert e.1 e.2) empty

theorem lookup_put (name key : String) (value : α) (entries : List (String × α)) :
    (put name value entries).lookup key =
      if key = name then some value else entries.lookup key := by
  induction entries with
  | nil => grind [put]
  | cons e rest ih => grind [put]

theorem mem_put {e : String × α} {name : String} {value : α} {entries : List (String × α)}
    (h : e ∈ put name value entries) : e ∈ entries ∨ e = (name, value) := by
  induction entries with
  | nil => grind [put]
  | cons first rest ih => grind [put]

/-- A look-up sees the last value stored under its name. -/
@[simp]
theorem get?_insert (t : Table α) (name key : String) (value : α) :
    (t.insert name value).get? key = if key = name then some value else t.get? key :=
  lookup_put name key value t.entries

@[simp]
theorem get?_empty (key : String) : (empty : Table α).get? key = none := rfl

/-- What is left of a table has been kept. -/
theorem keep_of_get?_filter {t : Table α} {keep : α → Bool} {name : String} {value : α}
    (h : (t.filter keep).get? name = some value) : keep value = true := by
  obtain ⟨before, after, hentries, -⟩ := List.lookup_eq_some_iff.mp h
  have hmem : (name, value) ∈ (t.filter keep).entries := by
    rw [hentries]
    exact List.mem_append_right before List.mem_cons_self
  exact (List.mem_filter.mp hmem).2

end Table

end Interop
