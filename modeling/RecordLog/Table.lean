/-!
# Tables

Two small finite maps. A `Table` keeps its keys in the order in which they came; a `PositionMap`
keeps positions in ascending order. Both have at most one value for a key, and writing a key
again replaces its value.
-/

namespace RecordLog

structure Table (κ ν : Type) where
  entries : List (κ × ν) := []
  deriving Repr, DecidableEq

namespace Table

variable {κ ν : Type} [DecidableEq κ]

instance : Inhabited (Table κ ν) := ⟨{}⟩

def get? (t : Table κ ν) (k : κ) : Option ν := t.entries.lookup k

def put (k : κ) (v : ν) : List (κ × ν) → List (κ × ν)
  | [] => [(k, v)]
  | e :: rest => if e.1 = k then (k, v) :: rest else e :: put k v rest

def insert (t : Table κ ν) (k : κ) (v : ν) : Table κ ν := ⟨put k v t.entries⟩

def erase (t : Table κ ν) (k : κ) : Table κ ν := ⟨t.entries.filter (·.1 ≠ k)⟩

@[simp] theorem get?_empty (k : κ) : ({} : Table κ ν).get? k = none := rfl

theorem lookup_cons (e : κ × ν) (es : List (κ × ν)) (k : κ) :
    (e :: es).lookup k = if e.1 = k then some e.2 else es.lookup k := by
  rw [List.lookup_cons]
  by_cases h : e.1 = k
  · simp [h]
  · have : (k == e.1) = false := by simpa using Ne.symm h
    simp [this, h]

theorem get?_insert (t : Table κ ν) (k k' : κ) (v : ν) :
    (t.insert k v).get? k' = if k = k' then some v else t.get? k' := by
  obtain ⟨es⟩ := t
  simp only [get?, insert]
  induction es with
  | nil => simp [put, lookup_cons]
  | cons e es ih =>
    simp only [put]
    split
    · rename_i he
      by_cases h : k = k' <;> simp [lookup_cons, he, h]
    · rename_i he
      rw [lookup_cons, lookup_cons, ih]
      by_cases h : k = k'
      · simp [h, h ▸ he]
      · simp [h]

theorem get?_erase (t : Table κ ν) (k k' : κ) :
    (t.erase k).get? k' = if k = k' then none else t.get? k' := by
  obtain ⟨es⟩ := t
  simp only [get?, erase]
  induction es with
  | nil => simp
  | cons e es ih =>
    rw [List.filter_cons]
    by_cases he : e.1 = k
    · rw [if_neg (by simpa using he), ih, lookup_cons]
      by_cases h : k = k' <;> simp [he, h]
    · rw [if_pos (by simpa using he), lookup_cons, lookup_cons, ih]
      by_cases h : k = k'
      · simp [h, h ▸ he]
      · simp [h]

end Table

structure PositionMap (ν : Type) where
  entries : List (Nat × ν) := []
  deriving Repr, DecidableEq

namespace PositionMap

variable {ν : Type}

instance : Inhabited (PositionMap ν) := ⟨{}⟩

def get? (m : PositionMap ν) (pos : Nat) : Option ν := m.entries.lookup pos

def put (pos : Nat) (v : ν) : List (Nat × ν) → List (Nat × ν)
  | [] => [(pos, v)]
  | e :: rest =>
    if pos < e.1 then (pos, v) :: e :: rest
    else if pos = e.1 then (pos, v) :: rest
    else e :: put pos v rest

def insert (m : PositionMap ν) (pos : Nat) (v : ν) : PositionMap ν := ⟨put pos v m.entries⟩

def values (m : PositionMap ν) : List ν := m.entries.map (·.2)

def map {μ : Type} (f : ν → μ) (m : PositionMap ν) : PositionMap μ :=
  ⟨m.entries.map fun e => (e.1, f e.2)⟩

def Ascending (m : PositionMap ν) : Prop := m.entries.Pairwise (·.1 < ·.1)

theorem get?_insert (m : PositionMap ν) (pos pos' : Nat) (v : ν) :
    (m.insert pos v).get? pos' = if pos = pos' then some v else m.get? pos' := by
  obtain ⟨es⟩ := m
  simp only [get?, insert]
  induction es with
  | nil => simp only [put, Table.lookup_cons]
  | cons e es ih =>
    simp only [put]
    split
    · rw [Table.lookup_cons]
    split
    · rename_i he
      rw [Table.lookup_cons, Table.lookup_cons, ← he]
      split <;> rfl
    · rename_i he
      rw [Table.lookup_cons, Table.lookup_cons, ih]
      by_cases h : pos = pos'
      · subst h
        rw [if_neg (Ne.symm he), if_pos rfl, if_pos rfl]
      · rw [if_neg h, if_neg h]

theorem mem_put {pos : Nat} {v : ν} {es : List (Nat × ν)} {e : Nat × ν}
    (h : e ∈ put pos v es) : e = (pos, v) ∨ e ∈ es := by
  induction es with
  | nil => simpa [put] using h
  | cons a es ih =>
    simp only [put] at h
    split at h
    · simpa using h
    split at h
    · simp only [List.mem_cons] at h ⊢
      exact h.imp_right .inr
    · simp only [List.mem_cons] at h ⊢
      rcases h with h | h
      · exact .inr (.inl h)
      · exact (ih h).imp_right .inr

theorem Ascending.insert {m : PositionMap ν} (h : m.Ascending) (pos : Nat) (v : ν) :
    (m.insert pos v).Ascending := by
  obtain ⟨es⟩ := m
  simp only [Ascending, PositionMap.insert] at h ⊢
  induction es with
  | nil => simp [put]
  | cons e es ih =>
    rw [List.pairwise_cons] at h
    simp only [put]
    split
    · rename_i hlt
      refine List.pairwise_cons.2 ⟨fun x hx => ?_, List.pairwise_cons.2 h⟩
      rcases List.mem_cons.1 hx with rfl | hx
      · exact hlt
      · exact Nat.lt_trans hlt (h.1 x hx)
    split
    · rename_i heq
      exact List.pairwise_cons.2 ⟨fun x hx => heq ▸ h.1 x hx, h.2⟩
    · refine List.pairwise_cons.2 ⟨fun x hx => ?_, ih h.2⟩
      rcases mem_put hx with rfl | hx
      · dsimp only; omega
      · exact h.1 x hx

theorem Ascending.mem_iff {m : PositionMap ν} (h : m.Ascending) (pos : Nat) (v : ν) :
    (pos, v) ∈ m.entries ↔ m.get? pos = some v := by
  obtain ⟨es⟩ := m
  simp only [Ascending, get?] at h ⊢
  induction es with
  | nil => simp
  | cons e es ih =>
    rw [List.pairwise_cons] at h
    rw [List.mem_cons, Table.lookup_cons, ih h.2]
    by_cases he : e.1 = pos
    · have hnone : es.lookup pos ≠ some v := fun hv => by
        have hlt := h.1 _ ((ih h.2).2 hv)
        exact Nat.ne_of_lt hlt he
      simp only [if_pos he, hnone, or_false, Option.some.injEq]
      exact ⟨fun hv => hv ▸ rfl, fun hv => by rw [← he, ← hv]⟩
    · have hne : (pos, v) ≠ e := fun hv => he (hv ▸ rfl)
      simp only [if_neg he, hne, false_or]

theorem map_insert {μ : Type} (f : ν → μ) (m : PositionMap ν) (pos : Nat) (v : ν) :
    (m.insert pos v).map f = (m.map f).insert pos (f v) := by
  obtain ⟨es⟩ := m
  simp only [map, insert, PositionMap.mk.injEq]
  induction es with
  | nil => rfl
  | cons e es ih =>
    simp only [put, List.map_cons]
    split
    · rfl
    split
    · rfl
    · simp [ih]

end PositionMap

end RecordLog
