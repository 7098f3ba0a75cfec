import CronScale.Proofs.Outcomes
import CronScale.Proofs.Text.Reading
import CronScale.Schedule.Parse
import Mathlib.Data.List.Forall2
import Mathlib.Data.List.Nodup
/-!
# The grammar of fields

The grammar is given on its own, as relations between texts and what they stand for: values of a
field, ranges, parts and lists of parts. Each reader succeeds exactly on the texts of its relation.
That a text has only one reading rests on its characters: no value holds a sign that divides a
range, a part or a list.
-/

namespace CronScale.Schedule

open CronScale.Text

/-- The texts that stand for a value of a field: numerals, and the names of the field in either
case. -/
inductive IsValue (f : Field) : List Char → Nat → Prop
  | numeral {cs : List Char} {n : Nat} (h : IsNumeral word32 cs n) : IsValue f cs n
  | name {cs : List Char} {i : Nat}
    (h : f.valueNames[i]? = some (String.ofList (cs.map Char.toUpper))) : IsValue f cs (i + f.low)

/-- The ranges of a field, with their first and last value and whether they stand for all values.
What a single value stands for depends on whether a step follows. -/
inductive IsRange (f : Field) (stepped : Bool) : List Char → Nat → Nat → Bool → Prop
  | star : IsRange f stepped ['*'] f.low f.high true
  | question (h : f.allowsQuestionMark = true) : IsRange f stepped ['?'] f.low f.high true
  | value {cs : List Char} {v : Nat} (h : IsValue f cs v) (low : f.low ≤ v) (high : v ≤ f.high) :
    IsRange f stepped cs v (if stepped then f.high else v) false
  | between {a b : List Char} {v w : Nat} (first : IsValue f a v) (last : IsValue f b w)
    (low : f.low ≤ v) (order : v ≤ w) (high : w ≤ f.high) :
    IsRange f stepped (a ++ '-' :: b) v w false

/-- The parts of a list and the values they cover. -/
inductive IsPart (f : Field) : List Char → Part → Prop
  | whole {cs : List Char} {start stop : Nat} {all : Bool} (h : IsRange f false cs start stop all) :
    IsPart f cs ⟨start, stop, 1, all⟩
  | stepped {cs ds : List Char} {start stop n : Nat} {all : Bool}
    (h : IsRange f true cs start stop all) (step : IsNumeral word32 ds n) (positive : 1 ≤ n)
    (bounded : n ≤ f.high) : IsPart f (cs ++ '/' :: ds) ⟨start, stop, n, all && n == 1⟩

/-- A list of parts, apart by commas. -/
def IsList (f : Field) (token : List Char) (parts : List Part) : Prop :=
  ∃ texts, texts ≠ [] ∧ List.intercalate [','] texts = token ∧ List.Forall₂ (IsPart f) texts parts

/-- Whether a token is a list of parts of a field. -/
def InGrammar (f : Field) (token : List Char) : Prop := ∃ parts, IsList f token parts

/-- A text without signs that divide ranges, parts or lists. -/
def IsPlain (cs : List Char) : Prop := cs ≠ [] ∧ ∀ c ∈ cs, c = '+' ∨ c.isAlphanum = true

theorem IsPlain.not_mem {cs : List Char} (h : IsPlain cs) {c : Char} (hplus : c ≠ '+')
    (halnum : c.isAlphanum = false) : c ∉ cs := by
  intro hc
  rcases h.2 c hc with heq | htrue
  · exact hplus heq
  · rw [halnum] at htrue
    exact Bool.noConfusion htrue

/-- A text that begins with a plain one is no sign for all values. -/
theorem not_wild_append {a b : List Char} (h : IsPlain a) :
    ¬ (a ++ b = ['*'] ∨ a ++ b = ['?']) := by
  cases a with
  | nil => exact absurd rfl h.1
  | cons c a =>
    have hchar := h.2 c List.mem_cons_self
    rintro (heq | heq) <;>
    · obtain ⟨rfl, -⟩ := List.cons.inj heq
      exact absurd hchar (by decide)

theorem valueNames_upper (f : Field) :
    ∀ name ∈ f.valueNames, name.toList ≠ [] ∧ ∀ c ∈ name.toList, c.isUpper = true := by
  have hall : f.valueNames.all (fun name =>
      !name.toList.isEmpty && name.toList.all Char.isUpper) = true := by
    cases f <;> rfl
  intro name hname
  have hupper := List.all_eq_true.1 hall name hname
  rw [Bool.and_eq_true, Bool.not_eq_true', List.isEmpty_eq_false_iff, List.all_eq_true] at hupper
  exact hupper

theorem nodup_valueNames (f : Field) : f.valueNames.Nodup := by
  cases f <;> decide +kernel

theorem isAlpha_of_isUpper_toUpper {c : Char} (h : c.toUpper.isUpper = true) :
    c.isAlpha = true := by
  refine Bool.or_eq_true_iff.2 (Classical.or_iff_not_imp_right.2 fun hlower => ?_)
  have hoff : ¬(c.val ≥ 'a'.val ∧ c.val ≤ 'z'.val) := fun hbounds =>
    hlower (Bool.and_eq_true_iff.2 ⟨decide_eq_true hbounds.1, decide_eq_true hbounds.2⟩)
  have hsame : c.toUpper = c := dif_neg hoff
  rwa [hsame] at h

theorem not_isDigit_of_isAlpha {c : Char} (h : c.isAlpha = true) : ¬ c.isDigit = true := by
  have hletter : (c.val ≥ 'A'.val ∧ c.val ≤ 'Z'.val) ∨ (c.val ≥ 'a'.val ∧ c.val ≤ 'z'.val) := by
    rcases Bool.or_eq_true_iff.1 h with hupper | hlower
    · exact .inl (of_decide_eq_true hupper)
    · obtain ⟨hleast, hmost⟩ := Bool.and_eq_true_iff.1 hlower
      exact .inr ⟨of_decide_eq_true hleast, of_decide_eq_true hmost⟩
  simp only [Char.isDigit, Bool.and_eq_true, decide_eq_true_eq, ge_iff_le,
    UInt32.le_iff_toNat_le] at hletter ⊢
  have hnine : '9'.val.toNat = 57 := rfl
  have hupper : 'A'.val.toNat = 65 := rfl
  have hlower : 'a'.val.toNat = 97 := rfl
  omega

theorem namedValue?_eq_some {f : Field} {cs : List Char} {v : Nat} :
    f.namedValue? cs = some v ↔
      ∃ i, f.valueNames[i]? = some (String.ofList (cs.map Char.toUpper)) ∧ i + f.low = v := by
  simp only [Field.namedValue?, Option.map_eq_some_iff]
  refine exists_congr fun i => and_congr_left fun _ => ?_
  rw [List.findIdx?_eq_some_iff_getElem, List.getElem?_eq_some_iff]
  refine exists_congr fun hi => ?_
  constructor
  · exact fun h => by simpa using h.1
  · intro h
    refine ⟨by simpa using h, fun j hj hsame => ?_⟩
    have hnames : f.valueNames[j] = f.valueNames[i] := by rw [h]; simpa using hsame
    have hindex : j = i := (nodup_valueNames f).getElem_inj_iff.1 hnames
    omega

theorem names_plain {f : Field} {cs : List Char} {i : Nat}
    (h : f.valueNames[i]? = some (String.ofList (cs.map Char.toUpper))) :
    cs ≠ [] ∧ ∀ c ∈ cs, c.isAlpha = true := by
  have hname := valueNames_upper f _ (List.mem_of_getElem? h)
  rw [String.toList_ofList] at hname
  constructor
  · rintro rfl
    exact hname.1 rfl
  · intro c hc
    exact isAlpha_of_isUpper_toUpper (hname.2 _ (List.mem_map_of_mem hc))

theorem IsValue.plain {f : Field} {cs : List Char} {v : Nat} (h : IsValue f cs v) :
    IsPlain cs := by
  cases h with
  | numeral h =>
    refine ⟨h.ne_nil, fun c hc => ?_⟩
    rcases h.char hc with hplus | hdigit
    · exact .inl hplus
    · exact .inr (by simp [Char.isAlphanum, hdigit])
  | name h =>
    have hname := names_plain h
    exact ⟨hname.1, fun c hc => .inr (by simp [Char.isAlphanum, hname.2 c hc])⟩

/-- A name is read as one, because it is no numeral. -/
theorem readValue_eq_ok {f : Field} {cs : List Char} {v : Nat} :
    readValue f cs = .ok v ↔ IsValue f cs v := by
  constructor
  · intro h
    unfold readValue at h
    split at h
    · rename_i n hn
      obtain rfl := Except.ok.inj h
      exact .numeral (readNumeral_eq_ok.1 hn)
    · split at h
      · rename_i n hn
        obtain rfl := Except.ok.inj h
        obtain ⟨i, hi, rfl⟩ := namedValue?_eq_some.1 hn
        exact .name hi
      · exact absurd h (by simp)
  · intro h
    unfold readValue
    cases h with
    | numeral h => rw [readNumeral_eq_ok.2 h]
    | @name i h =>
      have hname : f.namedValue? cs = some (i + f.low) := namedValue?_eq_some.2 ⟨i, h, rfl⟩
      cases hread : readNumeral word32 cs with
      | error e => simp [hname]
      | ok n =>
        have hletters := names_plain h
        obtain ⟨c, hc⟩ := List.exists_mem_of_ne_nil cs hletters.1
        have halpha := hletters.2 c hc
        rcases (readNumeral_eq_ok.1 hread).char hc with rfl | hdigit
        · exact absurd halpha (by decide)
        · exact absurd hdigit (not_isDigit_of_isAlpha halpha)

theorem checkRange_eq_ok {f : Field} {text : List Char} {start stop : Nat} :
    checkRange f text start stop = .ok () ↔ f.low ≤ start ∧ start ≤ stop ∧ stop ≤ f.high := by
  unfold checkRange
  split
  · rename_i houtside
    simp only [reduceCtorEq, false_iff]
    omega
  · rename_i hwithin
    split
    · rename_i hreversed
      simp only [reduceCtorEq, false_iff]
      omega
    · simp only [true_iff]
      omega

theorem Field.low_le_high (f : Field) : f.low ≤ f.high := by
  cases f <;> decide

/-- A range that is read and passes the check is one of the grammar, and the other way round. -/
theorem readRange_eq_ok {f : Field} {stepped : Bool} {cs : List Char} {start stop : Nat}
    {all : Bool} (text : List Char) :
    readRange f stepped cs = .ok (start, stop, all) ∧ checkRange f text start stop = .ok () ↔
      IsRange f stepped cs start stop all := by
  rw [checkRange_eq_ok]
  constructor
  · rintro ⟨hread, hlow, horder, hhigh⟩
    unfold readRange at hread
    split at hread
    · rename_i hwild
      split at hread
      · exact absurd hread (by simp)
      · rename_i hallowed
        simp only [Except.ok.injEq, Prod.mk.injEq] at hread
        obtain ⟨rfl, rfl, rfl⟩ := hread
        rcases hwild with rfl | rfl
        · exact .star
        · exact .question (by simpa using hallowed)
    · split at hread
      · rename_i a b hcut
        simp only [bind_eq_ok, pure_eq_ok, Prod.mk.injEq] at hread
        obtain ⟨v, hv, w, hw, rfl, rfl, rfl⟩ := hread
        rw [(cut_eq_some hcut).1]
        exact .between (readValue_eq_ok.1 hv) (readValue_eq_ok.1 hw) hlow horder hhigh
      · simp only [bind_eq_ok, pure_eq_ok, Prod.mk.injEq] at hread
        obtain ⟨v, hv, rfl, rfl, rfl⟩ := hread
        exact .value (readValue_eq_ok.1 hv) hlow (Nat.le_trans horder hhigh)
  · intro h
    have hbounds := f.low_le_high
    cases h with
    | star => exact ⟨by simp [readRange], Nat.le_refl _, hbounds, Nat.le_refl _⟩
    | question h => exact ⟨by simp [readRange, h], Nat.le_refl _, hbounds, Nat.le_refl _⟩
    | value h low high =>
      have hwild := not_wild_append (b := []) h.plain
      rw [List.append_nil] at hwild
      have hcut : cut '-' cs = none := cut_eq_none.2 (h.plain.not_mem (by decide) (by decide))
      refine ⟨?_, low, ?_⟩
      · simp only [readRange, if_neg hwild, hcut, bind_eq_ok, pure_eq_ok]
        exact ⟨_, readValue_eq_ok.2 h, rfl⟩
      · cases stepped
        · exact ⟨Nat.le_refl _, high⟩
        · exact ⟨high, Nat.le_refl _⟩
    | @between a b _ _ first last low order high =>
      have hwild := not_wild_append (b := '-' :: b) first.plain
      have hcut : cut '-' (a ++ '-' :: b) = some (a, b) :=
        cut_append (first.plain.not_mem (by decide) (by decide))
      refine ⟨?_, low, order, high⟩
      simp only [readRange, if_neg hwild, hcut, bind_eq_ok, pure_eq_ok]
      exact ⟨_, readValue_eq_ok.2 first, _, readValue_eq_ok.2 last, rfl⟩

/-- No range holds a sign that divides parts or lists. -/
theorem IsRange.not_mem {f : Field} {stepped all : Bool} {cs : List Char} {start stop : Nat}
    (h : IsRange f stepped cs start stop all) {sep : Char} (hsep : sep = '/' ∨ sep = ',') :
    sep ∉ cs := by
  have hsigns : sep ≠ '*' ∧ sep ≠ '?' ∧ sep ≠ '-' ∧ sep ≠ '+' ∧ sep.isAlphanum = false := by
    rcases hsep with rfl | rfl <;> decide
  obtain ⟨hstar, hquestion, hdash, hplus, halnum⟩ := hsigns
  cases h with
  | star => simp [hstar]
  | question => simp [hquestion]
  | value h => exact h.plain.not_mem hplus halnum
  | between first last =>
    have hfirst := first.plain.not_mem hplus halnum
    have hlast := last.plain.not_mem hplus halnum
    simp [hfirst, hlast, hdash]

theorem IsRange.ne_nil {f : Field} {stepped all : Bool} {cs : List Char} {start stop : Nat}
    (h : IsRange f stepped cs start stop all) : cs ≠ [] := by
  cases h with
  | star => decide
  | question => decide
  | value h => exact h.plain.1
  | between => simp

theorem readStep_eq_ok {f : Field} {cs : List Char} {n : Nat} :
    readStep f cs = .ok n ↔ IsNumeral word32 cs n ∧ 1 ≤ n ∧ n ≤ f.high := by
  rw [← readNumeral_eq_ok]
  unfold readStep
  cases readNumeral word32 cs with
  | error e => simp
  | ok m =>
    simp only [Except.ok.injEq]
    by_cases hzero : m = 0
    · rw [if_pos hzero]
      simp only [reduceCtorEq, false_iff]
      omega
    · by_cases hlarge : f.high < m
      · rw [if_neg hzero, if_pos hlarge]
        simp only [reduceCtorEq, false_iff]
        omega
      · rw [if_neg hzero, if_neg hlarge, Except.ok.injEq]
        omega

theorem readPart_eq_ok {f : Field} {cs : List Char} {p : Part} :
    readPart f cs = .ok p ↔ IsPart f cs p := by
  constructor
  · intro h
    unfold readPart at h
    split at h
    · exact absurd h (by simp)
    · split at h
      · rename_i range step hcut
        simp only [bind_eq_ok, pure_eq_ok] at h
        obtain ⟨n, hn, ⟨start, stop, all⟩, hrange, ⟨⟩, hcheck, rfl⟩ := h
        obtain ⟨hstep, hpositive, hbounded⟩ := readStep_eq_ok.1 hn
        rw [(cut_eq_some hcut).1]
        exact .stepped ((readRange_eq_ok _).1 ⟨hrange, hcheck⟩) hstep hpositive hbounded
      · simp only [bind_eq_ok, pure_eq_ok] at h
        obtain ⟨⟨start, stop, all⟩, hrange, ⟨⟩, hcheck, rfl⟩ := h
        exact .whole ((readRange_eq_ok _).1 ⟨hrange, hcheck⟩)
  · intro h
    cases h with
    | @whole _ start stop all h =>
      have hcut : cut '/' cs = none := cut_eq_none.2 (h.not_mem (.inl rfl))
      obtain ⟨hrange, hcheck⟩ := (readRange_eq_ok cs).2 h
      simp only [readPart, if_neg h.ne_nil, hcut, bind_eq_ok, pure_eq_ok]
      exact ⟨(start, stop, all), hrange, (), hcheck, rfl⟩
    | @stepped range step start stop n all h numeral positive bounded =>
      have hcut : cut '/' (range ++ '/' :: step) = some (range, step) :=
        cut_append (h.not_mem (.inl rfl))
      have hne : range ++ '/' :: step ≠ [] := by simp
      obtain ⟨hrange, hcheck⟩ := (readRange_eq_ok (range ++ '/' :: step)).2 h
      simp only [readPart, if_neg hne, hcut, bind_eq_ok, pure_eq_ok]
      exact ⟨n, readStep_eq_ok.2 ⟨numeral, positive, bounded⟩, (start, stop, all), hrange, (),
        hcheck, rfl⟩

/-- No part holds a comma. -/
theorem IsPart.not_mem {f : Field} {cs : List Char} {p : Part} (h : IsPart f cs p) : ',' ∉ cs := by
  cases h with
  | whole h => exact h.not_mem (.inr rfl)
  | @stepped range step _ _ n _ h numeral =>
    have hrange := h.not_mem (.inr rfl)
    have hstep : ',' ∉ step := by
      intro hc
      rcases numeral.char hc with heq | hdigit
      · exact absurd heq (by decide)
      · exact absurd hdigit (by decide)
    simp [hrange, hstep]

theorem mapM_eq_ok {ε α β : Type} {f : α → Except ε β} {xs : List α} {ys : List β} :
    xs.mapM f = .ok ys ↔ List.Forall₂ (fun x y => f x = .ok y) xs ys := by
  induction xs generalizing ys with
  | nil => rw [List.mapM_nil, pure_eq_ok, List.forall₂_nil_left_iff, eq_comm]
  | cons x xs ih =>
    simp only [List.mapM_cons, bind_eq_ok, pure_eq_ok, List.forall₂_cons_left_iff, ih]
    constructor
    · rintro ⟨y, hy, ys, hys, rfl⟩
      exact ⟨y, ys, hy, hys, rfl⟩
    · rintro ⟨y, ys, hy, hys, rfl⟩
      exact ⟨y, hy, ys, hys, rfl⟩

theorem readParts_eq_ok {f : Field} {token : List Char} {parts : List Part} :
    (splitOn ',' token).mapM (readPart f) = .ok parts ↔ IsList f token parts := by
  simp only [mapM_eq_ok, readPart_eq_ok]
  constructor
  · intro h
    exact ⟨splitOn ',' token, splitBy_ne_nil _ _, join_splitOn ',' token, h⟩
  · rintro ⟨texts, hne, rfl, h⟩
    have hparts : List.Forall₂ (fun text p => ',' ∉ text ∧ IsPart f text p) texts parts :=
      h.imp fun _ _ hp => ⟨hp.not_mem, hp⟩
    have hcommas : ∀ text ∈ texts, ',' ∉ text := ((List.forall₂_and_left _ _).1 hparts).1
    rw [splitOn_intercalate hne hcommas]
    exact h

theorem readField_eq_ok {f : Field} {token : List Char} {set : FieldSet} :
    readField f token = .ok set ↔
      ∃ parts, IsList f token parts ∧ FieldSet.ofParts f parts = set := by
  simp only [readField, bind_eq_ok, pure_eq_ok, readParts_eq_ok]

/-- A text is a list of parts in one way only. -/
theorem IsList.unique {f : Field} {token : List Char} {parts others : List Part}
    (h : IsList f token parts) (hother : IsList f token others) : others = parts := by
  have hread := readParts_eq_ok.2 h
  rw [readParts_eq_ok.2 hother] at hread
  exact Except.ok.inj hread

end CronScale.Schedule
