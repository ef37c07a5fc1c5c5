/-!
# Maps keyed by names

A `NameMap` lists its entries in increasing order of their names, by code point, so that walking
it is deterministic.  `insert` keeps that order and replaces an entry of the same name; `get?` is
the view that the rest of the library reasons about.
-/

namespace Flowgraph

structure NameMap (α : Type) where
  entries : List (String × α) := []
  deriving Repr

namespace NameMap

variable {α : Type}

def empty : NameMap α := ⟨[]⟩

def get? (map : NameMap α) (name : String) : Option α :=
  map.entries.lookup name

def contains (map : NameMap α) (name : String) : Bool :=
  (map.get? name).isSome

/-- Place an entry before the first greater name, or over the entry of the same name. -/
def insertEntry (name : String) (value : α) : List (String × α) → List (String × α)
  | [] => [(name, value)]
  | (key, old) :: rest =>
    if name = key then (name, value) :: rest
    else if name < key then (name, value) :: (key, old) :: rest
    else (key, old) :: insertEntry name value rest

def insert (map : NameMap α) (name : String) (value : α) : NameMap α :=
  ⟨insertEntry name value map.entries⟩

def erase (map : NameMap α) (name : String) : NameMap α :=
  ⟨map.entries.filter fun entry => entry.1 ≠ name⟩

def names (map : NameMap α) : List String :=
  map.entries.map Prod.fst

def size (map : NameMap α) : Nat :=
  map.entries.length

/-- Insert the entries from left to right, so that the last one of a name stays. -/
def ofList (entries : List (String × α)) : NameMap α :=
  entries.foldl (fun map entry => map.insert entry.1 entry.2) empty

/-- Keep the entries that `select` maps to something, under the same names. -/
def filterMap {β : Type} (map : NameMap α) (select : String → α → Option β) : NameMap β :=
  ⟨map.entries.filterMap fun entry => (select entry.1 entry.2).map fun value => (entry.1, value)⟩

/-! ## Looking up after an update -/

@[simp] theorem get?_empty (name : String) : (empty : NameMap α).get? name = none := rfl

theorem lookup_insertEntry (name other : String) (value : α) (entries : List (String × α)) :
    (insertEntry name value entries).lookup other =
      if other = name then some value else entries.lookup other := by
  by_cases hother : other = name
  · subst hother
    rw [if_pos rfl]
    induction entries with
    | nil => simp [insertEntry]
    | cons entry rest ih =>
      obtain ⟨key, old⟩ := entry
      simp only [insertEntry]
      by_cases hkey : other = key
      · simp [hkey]
      · rw [if_neg hkey]
        split
        · simp
        · simp only [List.lookup_cons, beq_eq_false_iff_ne.mpr hkey, ih]
  · rw [if_neg hother]
    have hmiss : (other == name) = false := beq_eq_false_iff_ne.mpr hother
    induction entries with
    | nil => simp only [insertEntry, List.lookup_cons, List.lookup_nil, hmiss]
    | cons entry rest ih =>
      obtain ⟨key, old⟩ := entry
      simp only [insertEntry]
      by_cases hkey : name = key
      · simp only [hkey, if_true] at hmiss ⊢
        simp only [List.lookup_cons, hmiss]
      · rw [if_neg hkey]
        split
        · simp only [List.lookup_cons, hmiss]
        · simp only [List.lookup_cons, ih]

theorem get?_insert (map : NameMap α) (name other : String) (value : α) :
    (map.insert name value).get? other = if other = name then some value else map.get? other :=
  lookup_insertEntry name other value map.entries

end NameMap

end Flowgraph
