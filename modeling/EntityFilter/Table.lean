namespace EntityFilter

/-- Values under names, sorted by name, at most one for each. -/
structure Table (α : Type) where
  entries : List (String × α)
  sorted : entries.Pairwise fun a b => a.1 < b.1

namespace Table

variable {α : Type}

instance [DecidableEq α] : DecidableEq (Table α) := fun s t =>
  if h : s.entries = t.entries then isTrue (by cases s; cases t; simp_all)
  else isFalse fun e => h (e ▸ rfl)

def empty : Table α := ⟨[], .nil⟩

/-- Puts an entry where its name belongs, in the place of one that is there already. -/
def insertEntry (name : String) (x : α) : List (String × α) → List (String × α)
  | [] => [(name, x)]
  | e :: es =>
    if name < e.1 then (name, x) :: e :: es
    else if name = e.1 then (name, x) :: es
    else e :: insertEntry name x es

theorem mem_insertEntry {name : String} {x : α} {es : List (String × α)} {e : String × α}
    (h : e ∈ insertEntry name x es) : e = (name, x) ∨ e ∈ es := by
  induction es with
  | nil => simpa [insertEntry] using h
  | cons d es ih =>
    unfold insertEntry at h
    split at h
    · simpa using h
    · split at h
      · rcases List.mem_cons.mp h with h | h
        · exact .inl h
        · exact .inr (List.mem_cons_of_mem _ h)
      · rcases List.mem_cons.mp h with h | h
        · exact .inr (h ▸ List.mem_cons_self)
        · exact (ih h).imp id (List.mem_cons_of_mem _)

theorem sorted_insertEntry (name : String) (x : α) {es : List (String × α)}
    (h : es.Pairwise fun a b => a.1 < b.1) :
    (insertEntry name x es).Pairwise fun a b => a.1 < b.1 := by
  induction es with
  | nil => simp [insertEntry]
  | cons d es ih =>
    obtain ⟨hd, hs⟩ := List.pairwise_cons.mp h
    unfold insertEntry
    split
    · rename_i lt
      refine List.pairwise_cons.mpr ⟨fun e he => ?_, h⟩
      rcases List.mem_cons.mp he with rfl | he
      · exact lt
      · exact String.lt_trans lt (hd e he)
    · split
      · rename_i eq
        exact List.pairwise_cons.mpr ⟨fun e he => eq ▸ hd e he, hs⟩
      · rename_i nlt ne
        refine List.pairwise_cons.mpr ⟨fun e he => ?_, ih hs⟩
        rcases mem_insertEntry he with rfl | he
        · rcases Std.lt_trichotomy name d.1 with lt | eq | gt
          · exact absurd lt nlt
          · exact absurd eq ne
          · exact gt
        · exact hd e he

def insert (name : String) (x : α) (t : Table α) : Table α :=
  ⟨insertEntry name x t.entries, sorted_insertEntry name x t.sorted⟩

/-- Of equally named entries the last is kept. -/
def ofList (es : List (String × α)) : Table α := es.foldl (fun t e => t.insert e.1 e.2) empty

def get? (t : Table α) (name : String) : Option α :=
  (t.entries.find? (·.1 == name)).map (·.2)

def contains (t : Table α) (name : String) : Bool := (t.get? name).isSome

def names (t : Table α) : List String := t.entries.map (·.1)

theorem find?_insertEntry (name other : String) (x : α) {es : List (String × α)}
    (h : es.Pairwise fun a b => a.1 < b.1) :
    (insertEntry name x es).find? (·.1 == other) =
      if other = name then some (name, x) else es.find? (·.1 == other) := by
  induction es with
  | nil =>
    by_cases e : other = name
    · simp [insertEntry, e]
    · simp [insertEntry, e, Ne.symm e]
  | cons d es ih =>
    obtain ⟨hd, hs⟩ := List.pairwise_cons.mp h
    unfold insertEntry
    split
    · by_cases e : other = name
      · simp [e]
      · simp [e, Ne.symm e]
    · split
      · rename_i eq
        by_cases e : other = name
        · simp [e]
        · have e' : d.1 ≠ other := fun h => e (h ▸ eq.symm)
          simp [e, Ne.symm e, e']
      · rename_i ne
        simp only [List.find?_cons]
        split
        · rename_i found
          have e : other ≠ name := fun h => ne (h ▸ (by simpa using found : d.1 = other).symm)
          simp [e]
        · exact ih hs

theorem get?_insert (t : Table α) (name other : String) (x : α) :
    (t.insert name x).get? other = if other = name then some x else t.get? other := by
  simp only [get?, insert, find?_insertEntry name other x t.sorted]
  split <;> simp

end Table

end EntityFilter
