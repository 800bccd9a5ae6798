/-!
Tables from names to values. A name keeps the place it got when it was first entered; entering it
again replaces its value.
-/

namespace Lox

/-- A table in order of first entry. Each name occurs once, as only `put` enters one. -/
structure NameTable (α : Type) where
  entries : List (String × α)
  deriving Repr

namespace NameTable

variable {α : Type}

def empty : NameTable α := ⟨[]⟩

def findEntry (name : String) : List (String × α) → Option α
  | [] => none
  | e :: es => if e.1 = name then some e.2 else findEntry name es

def get? (t : NameTable α) (name : String) : Option α := findEntry name t.entries

def contains (t : NameTable α) (name : String) : Bool := (t.get? name).isSome

def size (t : NameTable α) : Nat := t.entries.length

/-- The names, in order of entry. -/
def names (t : NameTable α) : List String := t.entries.map (·.1)

/-- Entries with a name entered or its value replaced. -/
def putEntry (name : String) (value : α) : List (String × α) → List (String × α)
  | [] => [(name, value)]
  | e :: es => if e.1 = name then (name, value) :: es else e :: putEntry name value es

/-- Enters a name, or replaces its value. -/
def put (t : NameTable α) (name : String) (value : α) : NameTable α :=
  ⟨putEntry name value t.entries⟩

@[simp] theorem get?_empty (name : String) : (empty : NameTable α).get? name = none := rfl

theorem get?_put (t : NameTable α) (name other : String) (value : α) :
    (t.put name value).get? other = if other = name then some value else t.get? other := by
  obtain ⟨entries⟩ := t
  simp only [get?, put]
  induction entries with
  | nil => simp [putEntry, findEntry, eq_comm]
  | cons e es ih =>
    unfold putEntry
    by_cases hk : e.1 = name
    · by_cases ho : other = name
      · simp [hk, ho, findEntry]
      · simp [hk, ho, findEntry, Ne.symm ho]
    · by_cases ho : e.1 = other
      · have : other ≠ name := fun h => hk (ho.trans h)
        simp [ho, findEntry, this]
      · simp [hk, ho, findEntry, ih]

theorem contains_iff (t : NameTable α) (name : String) : t.contains name ↔ name ∈ t.names := by
  obtain ⟨entries⟩ := t
  simp only [contains, get?, names]
  induction entries with
  | nil => simp [findEntry]
  | cons e es ih =>
    by_cases h : e.1 = name
    · simp [findEntry, h]
    · simp [findEntry, h, ih, Ne.symm h]

/-- A name that is entered keeps its place, and a new one comes last. -/
theorem names_put (t : NameTable α) (name : String) (value : α) :
    (t.put name value).names = if t.contains name then t.names else t.names ++ [name] := by
  obtain ⟨entries⟩ := t
  simp only [contains, get?, names, put]
  induction entries with
  | nil => simp [putEntry, findEntry]
  | cons e es ih =>
    by_cases h : e.1 = name
    · simp [putEntry, findEntry, h]
    · simp only [putEntry, findEntry, h, if_false, List.map_cons, ih]
      split <;> simp [*]

theorem length_names (t : NameTable α) : t.names.length = t.size := List.length_map ..

/-- A name that is there already does not make the table larger. -/
theorem size_put (t : NameTable α) (name : String) (value : α) :
    (t.put name value).size = if t.contains name then t.size else t.size + 1 := by
  rw [← length_names, names_put]
  split <;> simp [length_names]

theorem size_put_le (t : NameTable α) (name : String) (value : α) :
    (t.put name value).size ≤ t.size + 1 := by
  rw [size_put]
  split <;> simp

theorem mem_names_put (t : NameTable α) (name other : String) (value : α) :
    other ∈ (t.put name value).names ↔ other ∈ t.names ∨ other = name := by
  have hname := t.contains_iff name
  rw [names_put]
  split
  · next h =>
    have hmem : name ∈ t.names := hname.mp h
    exact ⟨Or.inl, fun h => h.elim id fun he => he ▸ hmem⟩
  · simp

end NameTable

end Lox
