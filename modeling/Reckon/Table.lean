/-!
# Tables of names

A `Table` binds names to values, each name at most once as long as only free names are inserted.

## Main statements

* `Table.find?_insert`, `Table.find?_erase` — what the operations do, as seen by looking names up.
-/

namespace Reckon

/-- Names and what they are bound to. -/
structure Table (β : Type) where
  entries : List (String × β) := []

namespace Table

variable {β : Type}

/-- What a name is bound to. -/
def find? (t : Table β) (name : String) : Option β := t.entries.lookup name

/-- Binds a name. -/
def insert (t : Table β) (name : String) (b : β) : Table β := ⟨(name, b) :: t.entries⟩

/-- Removes the binding of a name. -/
def erase (t : Table β) (name : String) : Table β := ⟨t.entries.filter (·.1 != name)⟩

/-- The bound names. -/
def names (t : Table β) : List String := t.entries.map (·.1)

/-- The values that names are bound to. -/
def values (t : Table β) : List β := t.entries.map (·.2)

@[simp] theorem find?_empty (name : String) : (Table.mk [] : Table β).find? name = none := rfl

theorem find?_insert (t : Table β) (name : String) (b : β) (n : String) :
    (t.insert name b).find? n = if n = name then some b else t.find? n := by
  by_cases h : n = name
  · simp [insert, find?, h]
  · have : (n == name) = false := by simpa using h
    simp [insert, find?, List.lookup_cons, h, this]

theorem find?_erase (t : Table β) (name n : String) :
    (t.erase name).find? n = if n = name then none else t.find? n := by
  rcases t with ⟨entries⟩
  simp only [erase, find?]
  induction entries with
  | nil => simp
  | cons e es ih =>
    rcases e with ⟨m, b⟩
    by_cases hm : m = name
    · subst hm
      by_cases hn : n = m
      · simpa [hn] using ih
      · have : (n == m) = false := by simpa using hn
        simp [List.lookup_cons, hn, this] at ih ⊢
        exact ih
    · have hne : (m != name) = true := by simpa using hm
      simp only [List.filter_cons, hne, if_true, List.lookup_cons]
      by_cases hn : n = m
      · subst hn
        simp [hm]
      · have : (n == m) = false := by simpa using hn
        simpa [this] using ih

end Table

end Reckon
