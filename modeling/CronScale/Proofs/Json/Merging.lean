import Mathlib.Data.List.Forall2
import CronScale.Json.Decode
import CronScale.Json.Printer
import CronScale.Table
/-!
# Merge patches

A merge patch is a value that is merged into another one as RFC 7396 says: its members take the
place of the members with their names, which are merged themselves, and those with null are taken
away; what is no record takes the place of whatever was there (`merged`). The order of members does
not count, so who merges may present them in another one (`Presents`). In a value that is well
formed no name is given twice, and to read members by their names is to look them up.
-/

namespace CronScale.Json

/-! ### Members by their names -/

/-- The value of the first member with a name. -/
def valueOf (name : String) (ms : List (String × Json)) : Option Json :=
  (ms.find? (·.1 == name)).map Prod.snd

/-- The members of a record; other values have none. -/
def rows : Json → List (String × Json)
  | .record ms => ms
  | _ => []

/-- What the value under a name is read as, which may be left out. -/
def optionalOf {α : Type} (name : String) (value : Json → Option α) (ms : List (String × Json)) :
    Option (Option α) :=
  (valueOf name ms).elim (some none) (asOptional value)

/-- The members with a value under a name, or with none. -/
def withValue (name : String) (value : Option Json) (ms : List (String × Json)) :
    List (String × Json) :=
  value.toList.map (name, ·) ++ ms.filter (·.1 != name)

theorem valueOf_cons (name : String) (m : String × Json) (ms : List (String × Json)) :
    valueOf name (m :: ms) = if m.1 = name then some m.2 else valueOf name ms := by
  by_cases h : m.1 = name
  · simp [valueOf, h]
  · simp [valueOf, h]

theorem valueOf_without (n name : String) (ms : List (String × Json)) :
    valueOf name (ms.filter (·.1 != n)) = if n = name then none else valueOf name ms := by
  induction ms with
  | nil => simp [valueOf]
  | cons m ms ih =>
    by_cases hm : m.1 = n
    · rw [List.filter_cons_of_neg (by simp [hm]), ih, valueOf_cons, hm]
      split <;> rfl
    · rw [List.filter_cons_of_pos (by simp [hm]), valueOf_cons, valueOf_cons, ih]
      split
      · rename_i hname
        rw [if_neg fun hn => hm (hname.trans hn.symm)]
      · rfl

theorem valueOf_withValue (n name : String) (value : Option Json) (ms : List (String × Json)) :
    valueOf name (withValue n value ms) = if n = name then value else valueOf name ms := by
  cases value with
  | none => exact valueOf_without n name ms
  | some j =>
    show valueOf name ((n, j) :: ms.filter (·.1 != n)) = _
    rw [valueOf_cons, valueOf_without]
    split <;> rfl

/-! ### Values that are well formed -/

mutual

/-- Whether no record gives a name twice. -/
def wellFormed : Json → Bool
  | .list js => wellFormedItems js
  | .record ms => decide (ms.map Prod.fst).Nodup && wellFormedMembers ms
  | _ => true

def wellFormedItems : List Json → Bool
  | [] => true
  | j :: js => wellFormed j && wellFormedItems js

def wellFormedMembers : List (String × Json) → Bool
  | [] => true
  | (_, j) :: ms => wellFormed j && wellFormedMembers ms

end

section

variable {ms : List (String × Json)} {js : List Json}

theorem nodup_of_wellFormed (h : (record ms).wellFormed = true) : (ms.map Prod.fst).Nodup :=
  of_decide_eq_true (Bool.and_eq_true_iff.1 h).1

theorem wellFormed_valueOf (h : (record ms).wellFormed = true) {name : String} {j : Json}
    (hj : valueOf name ms = some j) : j.wellFormed = true := by
  replace h : wellFormedMembers ms = true := (Bool.and_eq_true_iff.1 h).2
  induction ms with
  | nil => cases hj
  | cons m ms ih =>
    obtain ⟨hm, hms⟩ := Bool.and_eq_true_iff.1 h
    rw [valueOf_cons] at hj
    split at hj
    · exact Option.some.inj hj ▸ hm
    · exact ih hj hms

theorem wellFormed_item (h : (list js).wellFormed = true) {j : Json} (hj : j ∈ js) :
    j.wellFormed = true := by
  replace h : wellFormedItems js = true := h
  induction js with
  | nil => cases hj
  | cons k js ih =>
    obtain ⟨hk, hjs⟩ := Bool.and_eq_true_iff.1 h
    rcases List.mem_cons.1 hj with rfl | hj
    · exact hk
    · exact ih hj hjs

end

/-! ### Reading members -/

section

variable {α : Type} {ms : List (String × Json)} (h : (ms.map Prod.fst).Nodup) (name : String)
  (value : Json → Option α)

include h

theorem filter_of_nodup : ms.filter (·.1 == name) = (ms.find? (·.1 == name)).toList := by
  have hkey := Table.filter_key (k := name) h
  simpa only [beq_eq_decide] using hkey

theorem members_of_nodup (names : List String) : members names (.record ms) = some ⟨false, ms⟩ := by
  have hone : ∀ name, ms.countP (·.1 == name) ≤ 1 := by
    intro name
    rw [List.countP_eq_length_filter, filter_of_nodup h]
    cases ms.find? (·.1 == name) <;> simp
  simp [members, hone]

theorem read?_of_nodup : (Members.mk false ms).read? name value =
    (valueOf name ms).elim (some none) fun j => (value j).map some := by
  unfold Members.read? valueOf
  rw [filter_of_nodup h]
  cases ms.find? (·.1 == name) with
  | none => rfl
  | some m =>
    cases hvalue : value m.2 with
    | none => simp [hvalue]
    | some a => simp [hvalue]

theorem required_of_nodup : (Members.mk false ms).required name value =
    (valueOf name ms).bind value := by
  rw [Members.required, read?_of_nodup h]
  cases valueOf name ms with
  | none => rfl
  | some j => cases hvalue : value j <;> simp [hvalue]

theorem defaulted_of_nodup (default : α) : (Members.mk false ms).defaulted name default value =
    (valueOf name ms).elim (some default) value := by
  rw [Members.defaulted, read?_of_nodup h]
  cases valueOf name ms with
  | none => rfl
  | some j => cases hvalue : value j <;> simp [hvalue]

theorem optional_of_nodup : (Members.mk false ms).optional name value =
    optionalOf name value ms := by
  rw [Members.optional, read?_of_nodup h, optionalOf]
  cases valueOf name ms with
  | none => rfl
  | some j => cases hvalue : asOptional value j <;> simp [hvalue]

end

/-! ### Merging -/

mutual

/-- What a merge patch makes of a value. -/
def merged : Json → Json → Json
  | .record changes, target => .record (mergedMembers changes target.rows)
  | j, _ => j

def mergedMembers : List (String × Json) → List (String × Json) → List (String × Json)
  | [], ms => ms
  | (name, .null) :: changes, ms => mergedMembers changes (withValue name none ms)
  | (name, j) :: changes, ms =>
    mergedMembers changes (withValue name (some (merged j ((valueOf name ms).getD .null))) ms)

end

/-- What a change makes of a member that may be there. -/
def changed : Json → Option Json → Option Json
  | .null, _ => none
  | j, was => some (merged j (was.getD .null))

theorem mergedMembers_cons (name : String) (j : Json) (changes ms : List (String × Json)) :
    mergedMembers ((name, j) :: changes) ms =
      mergedMembers changes (withValue name (changed j (valueOf name ms)) ms) := by
  cases j <;> rfl

/-- A merge changes the members that the patch gives, each by itself, and no others. -/
theorem valueOf_mergedMembers {changes : List (String × Json)}
    (h : (changes.map Prod.fst).Nodup) (name : String) (ms : List (String × Json)) :
    valueOf name (mergedMembers changes ms) =
      (valueOf name changes).elim (valueOf name ms) fun j => changed j (valueOf name ms) := by
  induction changes generalizing ms with
  | nil => rfl
  | cons m changes ih =>
    obtain ⟨n, j⟩ := m
    rw [List.map_cons, List.nodup_cons] at h
    rw [mergedMembers_cons, ih h.2, valueOf_withValue, valueOf_cons]
    by_cases hn : n = name
    · subst hn
      have hnone : valueOf n changes = none := by
        rw [valueOf, Option.map_eq_none_iff, List.find?_eq_none]
        exact fun m hm heq => h.1 (List.mem_map.2 ⟨m, hm, beq_iff_eq.1 heq⟩)
      simp [hnone]
    · simp [hn]

/-- Whether a value is another one with the members of its records in any order. -/
inductive Presents : Json → Json → Prop
  | null : Presents .null .null
  | bool (b : Bool) : Presents (.bool b) (.bool b)
  | whole (n : Int) : Presents (.whole n) (.whole n)
  | decimal (s : String) : Presents (.decimal s) (.decimal s)
  | text (s : String) : Presents (.text s) (.text s)
  | list {js ks : List Json} (h : List.Forall₂ Presents js ks) : Presents (.list js) (.list ks)
  | record {ms ns : List (String × Json)}
      (h : ∀ name, Option.Rel Presents (valueOf name ms) (valueOf name ns)) :
      Presents (.record ms) (.record ns)
  | unreadable : Presents .unreadable .unreadable

mutual

theorem presents_refl : ∀ j : Json, j.Presents j
  | .null => .null
  | .bool b => .bool b
  | .whole n => .whole n
  | .decimal s => .decimal s
  | .text s => .text s
  | .list js => .list (presents_items js)
  | .record ms => .record (presents_members ms)
  | .unreadable => .unreadable

theorem presents_items : ∀ js : List Json, List.Forall₂ Presents js js
  | [] => .nil
  | j :: js => .cons (presents_refl j) (presents_items js)

theorem presents_members : ∀ (ms : List (String × Json)) (name : String),
    Option.Rel Presents (valueOf name ms) (valueOf name ms)
  | [], _ => .none
  | (n, j) :: ms, name => by
    rw [valueOf_cons]
    split
    · exact .some (presents_refl j)
    · exact presents_members ms name

end

theorem Presents.texts {j : Json} {ss : List String} (h : j.Presents (texts ss)) :
    j = Json.texts ss := by
  cases h with
  | @list js _ hitems =>
    refine congrArg Json.list ?_
    induction ss generalizing js with
    | nil => cases hitems; rfl
    | cons s ss ih =>
      cases hitems with
      | cons hitem hitems =>
        cases hitem
        rw [ih hitems, List.map_cons]

/-- The members of the second patch that are null, and only these, are taken away. -/
example : (merged (.record [("a", .null), ("b", .record [("c", .whole 1)])])
    (.record [("a", .whole 0), ("b", .text ""), ("d", .null)])).compact =
      "\x7b\"b\":\x7b\"c\":1\x7d,\"d\":null\x7d" := by
  decide +kernel

end CronScale.Json
