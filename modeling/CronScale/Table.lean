/-!
# Finite tables

A table holds at most one value under each key, in the order in which the keys first came. Writing
under a key that is present replaces the value and keeps the place. A table is known by what
`get?` answers; `get?_insert` and `get?_erase` say how the two writing operations change that.
-/

namespace CronScale

/-- Values under distinct keys. -/
structure Table (κ υ : Type) where
  rows : List (κ × υ)
  distinct : (rows.map Prod.fst).Nodup

namespace Table

variable {κ υ : Type} [DecidableEq κ]

def empty : Table κ υ := ⟨[], List.nodup_nil⟩

instance : Inhabited (Table κ υ) := ⟨empty⟩

def get? (t : Table κ υ) (k : κ) : Option υ :=
  (t.rows.find? fun r => r.1 = k).map Prod.snd

def contains (t : Table κ υ) (k : κ) : Bool := (t.get? k).isSome

def keys (t : Table κ υ) : List κ := t.rows.map Prod.fst

def values (t : Table κ υ) : List υ := t.rows.map Prod.snd

def size (t : Table κ υ) : Nat := t.rows.length

/-- The rows with the value under one key replaced. -/
def replaceRow (k : κ) (v : υ) (rows : List (κ × υ)) : List (κ × υ) :=
  rows.map fun r => if r.1 = k then (r.1, v) else r

theorem replaceRow_keys (k : κ) (v : υ) (rows : List (κ × υ)) :
    (replaceRow k v rows).map Prod.fst = rows.map Prod.fst := by
  simp only [replaceRow, List.map_map]
  congr 1
  funext r
  by_cases h : r.1 = k <;> simp [h]

def insert (t : Table κ υ) (k : κ) (v : υ) : Table κ υ :=
  if h : k ∈ t.rows.map Prod.fst then
    ⟨replaceRow k v t.rows, by rw [replaceRow_keys]; exact t.distinct⟩
  else
    ⟨t.rows ++ [(k, v)], by
      rw [List.map_append]
      refine List.nodup_append.2 ⟨t.distinct, by simp, ?_⟩
      intro a ha b hb hab
      simp only [List.map_cons, List.map_nil, List.mem_singleton] at hb
      exact h (hb ▸ hab ▸ ha)⟩

def filter (t : Table κ υ) (p : κ → υ → Bool) : Table κ υ :=
  ⟨t.rows.filter fun r => p r.1 r.2, t.distinct.sublist ((List.filter_sublist).map _)⟩

def erase (t : Table κ υ) (k : κ) : Table κ υ := t.filter fun k' _ => k' ≠ k

/-- The table with every value changed by a function. -/
def map {ω : Type} (t : Table κ υ) (f : υ → ω) : Table κ ω :=
  ⟨t.rows.map fun r => (r.1, f r.2), by
    have : (t.rows.map fun r => (r.1, f r.2)).map Prod.fst = t.rows.map Prod.fst := by
      simp [List.map_map, Function.comp_def]
    rw [this]; exact t.distinct⟩

/-- The table with the value under one key changed, if the key is present. -/
def modify (t : Table κ υ) (k : κ) (f : υ → υ) : Table κ υ :=
  match t.get? k with
  | none => t
  | some v => t.insert k (f v)

@[simp] theorem get?_empty (k : κ) : (empty : Table κ υ).get? k = none := rfl

theorem find?_replaceRow (k k' : κ) (v : υ) (rows : List (κ × υ)) :
    ((replaceRow k v rows).find? fun r => r.1 = k').map Prod.snd =
      if k' = k then (rows.find? fun r => r.1 = k).map fun _ => v
      else (rows.find? fun r => r.1 = k').map Prod.snd := by
  induction rows with
  | nil => simp [replaceRow]
  | cons r rows ih =>
    rw [replaceRow, List.map_cons, List.find?_cons, List.find?_cons, List.find?_cons]
    rw [replaceRow] at ih
    by_cases hr : r.1 = k
    · by_cases hk : k' = k
      · simp [hr, hk]
      · have hk2 : k ≠ k' := fun e => hk e.symm
        simpa [hr, hk, hk2] using ih
    · by_cases hk : r.1 = k'
      · have hne : k' ≠ k := fun e => hr (hk.trans e)
        simp [hk, hne]
      · simpa [hr, hk] using ih

theorem find?_filter_ne (k k' : κ) (rows : List (κ × υ)) :
    ((rows.filter fun r => decide (r.1 ≠ k)).find? fun r => r.1 = k').map Prod.snd =
      if k' = k then none else (rows.find? fun r => r.1 = k').map Prod.snd := by
  induction rows with
  | nil => simp
  | cons r rows ih =>
    by_cases hr : r.1 = k
    · rw [List.filter_cons_of_neg (by simpa using hr), ih, List.find?_cons]
      by_cases hk : k' = k
      · simp [hk]
      · have hk2 : k ≠ k' := fun e => hk e.symm
        simp [hr, hk, hk2]
    · rw [List.filter_cons_of_pos (by simpa using hr), List.find?_cons, List.find?_cons]
      by_cases hk : r.1 = k'
      · have hne : k' ≠ k := fun e => hr (hk.trans e)
        simp [hk, hne]
      · simpa [hk] using ih

theorem find?_eq_none_of_not_mem {k : κ} {rows : List (κ × υ)} (h : k ∉ rows.map Prod.fst) :
    rows.find? (fun r => r.1 = k) = none := by
  rw [List.find?_eq_none]
  intro r hr he
  exact h (List.mem_map.2 ⟨r, hr, of_decide_eq_true he⟩)

theorem isSome_find?_of_mem {k : κ} {rows : List (κ × υ)} (h : k ∈ rows.map Prod.fst) :
    (rows.find? fun r => r.1 = k).isSome := by
  obtain ⟨r, hr, he⟩ := List.mem_map.1 h
  rw [List.find?_isSome]
  exact ⟨r, hr, by simpa using he⟩

theorem find?_of_mem {k : κ} {v : υ} {rows : List (κ × υ)} (hd : (rows.map Prod.fst).Nodup)
    (h : (k, v) ∈ rows) : rows.find? (fun r => r.1 = k) = some (k, v) := by
  induction rows with
  | nil => exact absurd h (List.not_mem_nil)
  | cons r rows ih =>
    rw [List.map_cons, List.nodup_cons] at hd
    rcases List.mem_cons.1 h with rfl | h
    · rw [List.find?_cons_of_pos (by simp)]
    · have hne : r.1 ≠ k := fun e => hd.1 (List.mem_map.2 ⟨(k, v), h, e.symm⟩)
      rw [List.find?_cons_of_neg (by simpa using hne), ih hd.2 h]

theorem filter_key {k : κ} {rows : List (κ × υ)} (hd : (rows.map Prod.fst).Nodup) :
    rows.filter (fun r => r.1 = k) = (rows.find? fun r => r.1 = k).toList := by
  induction rows with
  | nil => rfl
  | cons r rows ih =>
    rw [List.map_cons, List.nodup_cons] at hd
    by_cases hk : r.1 = k
    · rw [List.filter_cons_of_pos (by simpa using hk), List.find?_cons_of_pos (by simpa using hk),
        ih hd.2, find?_eq_none_of_not_mem (hk ▸ hd.1)]
      rfl
    · rw [List.filter_cons_of_neg (by simpa using hk), List.find?_cons_of_neg (by simpa using hk),
        ih hd.2]

/-- An erasure takes one row away if the key is present. -/
theorem size_erase {t : Table κ υ} {k : κ} {v : υ} (h : t.get? k = some v) :
    (t.erase k).size + 1 = t.size := by
  obtain ⟨r, hr, _⟩ := Option.map_eq_some_iff.1 h
  have hone : (t.rows.filter fun r => r.1 = k).length = 1 := by
    rw [filter_key t.distinct, hr]
    rfl
  have hsplit := List.length_eq_countP_add_countP (fun r => decide (r.1 = k)) (l := t.rows)
  simp only [List.countP_eq_length_filter, hone, decide_eq_true_eq] at hsplit
  simp only [size, erase, filter, ne_eq]
  omega

/-- A table answers exactly what its rows say. -/
theorem get?_eq_some_iff {t : Table κ υ} {k : κ} {v : υ} : t.get? k = some v ↔ (k, v) ∈ t.rows := by
  constructor
  · intro h
    obtain ⟨r, hr, rfl⟩ := Option.map_eq_some_iff.1 h
    have hk : r.1 = k := by simpa using List.find?_some hr
    exact hk ▸ List.mem_of_find?_eq_some hr
  · intro h
    rw [get?, find?_of_mem t.distinct h]
    rfl

theorem mem_values {t : Table κ υ} {v : υ} : v ∈ t.values ↔ ∃ k, t.get? k = some v := by
  simp only [values, List.mem_map, get?_eq_some_iff]
  constructor
  · rintro ⟨r, hr, rfl⟩
    exact ⟨r.1, hr⟩
  · rintro ⟨k, hk⟩
    exact ⟨(k, v), hk, rfl⟩

/-- Among values that lie under their own keys, those with one key are what the table answers. -/
theorem filter_values {t : Table κ υ} {f : υ → κ} (h : ∀ k v, t.get? k = some v → f v = k) (k : κ) :
    t.values.filter (fun v => f v = k) = (t.get? k).toList := by
  have hrows : t.rows.filter (fun r => f r.2 = k) = t.rows.filter fun r => r.1 = k := by
    refine List.filter_congr fun r hr => ?_
    rw [h r.1 r.2 (get?_eq_some_iff.2 hr)]
  rw [values, List.filter_map, Function.comp_def, hrows, filter_key t.distinct, get?]
  cases t.rows.find? fun r => r.1 = k <;> rfl

/-- Values that lie under their own keys name the keys in their order. -/
theorem values_map {t : Table κ υ} {f : υ → κ} (h : ∀ k v, t.get? k = some v → f v = k) :
    t.values.map f = t.keys := by
  rw [values, List.map_map, keys]
  exact List.map_congr_left fun r hr => h r.1 r.2 (get?_eq_some_iff.2 hr)

theorem get?_map {ω : Type} (t : Table κ υ) (f : υ → ω) (k : κ) :
    (t.map f).get? k = (t.get? k).map f := by
  simp only [get?, map, List.find?_map, Option.map_map]
  rfl

theorem mem_keys {t : Table κ υ} {k : κ} : k ∈ t.keys ↔ ∃ v, t.get? k = some v := by
  simp only [keys, List.mem_map, get?_eq_some_iff]
  constructor
  · rintro ⟨⟨k, v⟩, hr, rfl⟩
    exact ⟨v, hr⟩
  · rintro ⟨v, hv⟩
    exact ⟨(k, v), hv, rfl⟩

theorem keys_insert_of_mem {t : Table κ υ} {k : κ} (h : k ∈ t.keys) (v : υ) :
    (t.insert k v).keys = t.keys := by
  rw [insert, dif_pos (show k ∈ t.rows.map Prod.fst from h)]
  exact replaceRow_keys k v t.rows

theorem keys_insert_of_not_mem {t : Table κ υ} {k : κ} (h : k ∉ t.keys) (v : υ) :
    (t.insert k v).keys = t.keys ++ [k] := by
  rw [insert, dif_neg (show k ∉ t.rows.map Prod.fst from h)]
  exact List.map_append

theorem keys_erase (t : Table κ υ) (k : κ) : (t.erase k).keys = t.keys.erase k := by
  have hkeys : t.keys.Nodup := t.distinct
  rw [hkeys.erase_eq_filter, keys, keys, List.filter_map]
  refine congrArg (List.map Prod.fst) (List.filter_congr fun r _ => ?_)
  exact decide_not

/-- After a write, the key written to answers the value and every other key what it did before. -/
theorem get?_insert (t : Table κ υ) (k k' : κ) (v : υ) :
    (t.insert k v).get? k' = if k' = k then some v else t.get? k' := by
  unfold insert get?
  split
  · rename_i h
    rw [find?_replaceRow]
    obtain ⟨r, hr⟩ := Option.isSome_iff_exists.1 (isSome_find?_of_mem h)
    simp [hr]
  · rename_i h
    rw [List.find?_append]
    by_cases hk : k' = k
    · subst hk
      simp [find?_eq_none_of_not_mem h]
    · have hk2 : k ≠ k' := fun e => hk e.symm
      simp [hk, hk2]

/-- After an erasure, the key erased is absent and every other key answers what it did before. -/
theorem get?_erase (t : Table κ υ) (k k' : κ) :
    (t.erase k).get? k' = if k' = k then none else t.get? k' :=
  find?_filter_ne k k' t.rows

end Table

end CronScale
