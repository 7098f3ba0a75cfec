import CronScale.Proofs.Schedule.Grammar
/-!
# What expressions denote

An expression is read if and only if its words are six lists of parts, one of each field
(`parse_accepts_grammar`). The sets of the schedule are then what the lists cover, and otherwise
the first word from the left that is no list of its field is the one to blame.
-/

namespace CronScale.Schedule

open CronScale.Text

/-! ## What a list stands for -/

/-- Whether a list covers a value: one of its parts reaches it from the first value of the part, in
steps, before the last value is passed. -/
def Covers (f : Field) (token : List Char) (v : Nat) : Prop :=
  ∃ parts, IsList f token parts ∧ ∃ p ∈ parts, ∃ k, v = p.start + k * p.step ∧ v ≤ p.stop

/-- Whether one of the parts of a list stands for all values, in no steps but one. -/
def Unrestricted (f : Field) (token : List Char) : Prop :=
  ∃ parts, IsList f token parts ∧ ∃ p ∈ parts, p.unrestricted = true

/-- The values that a list covers, in ascending order: one at least, and all of the field. -/
structure Denotes (f : Field) (token : List Char) (values : List Nat) : Prop where
  ascending : values.Pairwise (· < ·)
  mem_iff : ∀ v, v ∈ values ↔ Covers f token v
  nonempty : values ≠ []
  within : ∀ v ∈ values, f.low ≤ v ∧ v ≤ f.high

/-- The days that a list covers, and whether it is unrestricted; it covers every day then. -/
structure DenotesDays (f : Field) (token : List Char) (values : List Nat) (all : Bool) : Prop
    extends Denotes f token values where
  all_iff : all = true ↔ Unrestricted f token
  full : all = true → ∀ v, f.low ≤ v → v ≤ f.high → v ∈ values

theorem IsRange.bounds {f : Field} {stepped all : Bool} {cs : List Char} {start stop : Nat}
    (h : IsRange f stepped cs start stop all) :
    f.low ≤ start ∧ start ≤ stop ∧ stop ≤ f.high :=
  checkRange_eq_ok.1 ((readRange_eq_ok cs).2 h).2

theorem IsRange.whole {f : Field} {stepped all : Bool} {cs : List Char} {start stop : Nat}
    (h : IsRange f stepped cs start stop all) (hall : all = true) :
    start = f.low ∧ stop = f.high := by
  cases h with
  | star => exact ⟨rfl, rfl⟩
  | question => exact ⟨rfl, rfl⟩
  | value => exact Bool.noConfusion hall
  | between => exact Bool.noConfusion hall

theorem IsPart.bounds {f : Field} {cs : List Char} {p : Part} (h : IsPart f cs p) :
    f.low ≤ p.start ∧ p.start ≤ p.stop ∧ p.stop ≤ f.high := by
  cases h with
  | whole h => exact h.bounds
  | stepped h => exact h.bounds

theorem IsPart.whole_of_unrestricted {f : Field} {cs : List Char} {p : Part} (h : IsPart f cs p)
    (hall : p.unrestricted = true) : p.start = f.low ∧ p.stop = f.high ∧ p.step = 1 := by
  cases h with
  | whole h =>
    have hwhole := h.whole hall
    exact ⟨hwhole.1, hwhole.2, rfl⟩
  | stepped h =>
    simp only [Bool.and_eq_true, beq_iff_eq] at hall
    have hwhole := h.whole hall.1
    exact ⟨hwhole.1, hwhole.2, hall.2⟩

theorem IsList.forall {f : Field} {token : List Char} {parts : List Part}
    (h : IsList f token parts) :
    parts ≠ [] ∧ ∀ p ∈ parts, ∃ text, IsPart f text p := by
  obtain ⟨texts, hne, -, h⟩ := h
  constructor
  · rintro rfl
    exact hne (List.forall₂_nil_right_iff.1 h)
  · intro p hp
    obtain ⟨i, hi, rfl⟩ := List.getElem_of_mem hp
    have hi' : i < texts.length := by rw [h.length_eq]; exact hi
    exact ⟨texts[i], (List.forall₂_iff_get.1 h).2 i hi' hi⟩

theorem Part.covers_iff {p : Part} {v : Nat} :
    p.covers v = true ↔ ∃ k, v = p.start + k * p.step ∧ v ≤ p.stop := by
  simp only [Part.covers, Bool.and_eq_true, decide_eq_true_eq, beq_iff_eq]
  constructor
  · rintro ⟨⟨hstart, hstop⟩, hmod⟩
    obtain ⟨k, hk⟩ := Nat.dvd_of_mod_eq_zero hmod
    refine ⟨k, ?_, hstop⟩
    rw [Nat.mul_comm, ← hk]
    omega
  · rintro ⟨k, rfl, hstop⟩
    refine ⟨⟨Nat.le_add_right _ _, hstop⟩, ?_⟩
    rw [Nat.add_sub_cancel_left, Nat.mul_mod_left]

theorem mem_ofParts {f : Field} {token : List Char} {parts : List Part} (h : IsList f token parts)
    {v : Nat} : v ∈ (FieldSet.ofParts f parts).values ↔ Covers f token v := by
  simp only [FieldSet.ofParts, List.mem_filter, List.any_eq_true, Part.covers_iff, Field.mem_range]
  constructor
  · exact fun hv => ⟨parts, h, hv.2⟩
  · rintro ⟨others, hothers, p, hp, k, hv, hstop⟩
    obtain rfl := h.unique hothers
    obtain ⟨text, hpart⟩ := h.forall.2 p hp
    have hbounds := hpart.bounds
    refine ⟨?_, p, hp, k, hv, hstop⟩
    have hgrows : p.start ≤ v := hv ▸ Nat.le_add_right _ _
    omega

theorem denotes_ofParts {f : Field} {token : List Char} {parts : List Part}
    (h : IsList f token parts) :
    DenotesDays f token (FieldSet.ofParts f parts).values
      (FieldSet.ofParts f parts).unrestricted where
  ascending := by
    have hrange : f.range.Pairwise (· < ·) := List.Pairwise.filter _ List.pairwise_lt_range
    exact hrange.filter _
  mem_iff := fun v => mem_ofParts h
  nonempty := by
    obtain ⟨p, hp⟩ := List.exists_mem_of_ne_nil parts h.forall.1
    obtain ⟨text, hpart⟩ := h.forall.2 p hp
    have hfirst : Covers f token p.start := ⟨parts, h, p, hp, 0, by omega, hpart.bounds.2.1⟩
    exact List.ne_nil_of_mem ((mem_ofParts h).2 hfirst)
  within := by
    intro v hv
    exact Field.mem_range.1 (List.mem_of_mem_filter hv)
  all_iff := by
    simp only [FieldSet.ofParts, List.any_eq_true]
    constructor
    · exact fun hall => ⟨parts, h, hall⟩
    · rintro ⟨others, hothers, hall⟩
      obtain rfl := h.unique hothers
      exact hall
  full := by
    intro hall v hlow hhigh
    obtain ⟨p, hp, hunrestricted⟩ := List.any_eq_true.1 hall
    obtain ⟨text, hpart⟩ := h.forall.2 p hp
    obtain ⟨hstart, hstop, hstep⟩ := hpart.whole_of_unrestricted hunrestricted
    exact (mem_ofParts h).2 ⟨parts, h, p, hp, v - p.start, by rw [hstep]; omega, by omega⟩

/-! ## Expressions -/

/-- The fields of an expression from left to right. -/
def Field.order : List Field := [.second, .minute, .hour, .dayOfMonth, .month, .dayOfWeek]

/-- The first of several fields whose token is outside the grammar. -/
inductive FirstOutside : List Field → List (List Char) → Field → Prop
  | here {f : Field} {fs : List Field} {token : List Char} {tokens : List (List Char)}
    (outside : ¬ InGrammar f token) : FirstOutside (f :: fs) (token :: tokens) f
  | later {f g : Field} {fs : List Field} {token : List Char} {tokens : List (List Char)}
    (inside : InGrammar f token) (h : FirstOutside fs tokens g) :
    FirstOutside (f :: fs) (token :: tokens) g

/-- A recurrence that is what six tokens denote. -/
def Spelled (tokens : List (List Char)) (r : Recurrence) : Prop :=
  ∃ s m h dom mon dow, tokens = [s, m, h, dom, mon, dow] ∧
    Denotes .second s r.seconds ∧ Denotes .minute m r.minutes ∧ Denotes .hour h r.hours ∧
    DenotesDays .dayOfMonth dom r.daysOfMonth r.anyDayOfMonth ∧ Denotes .month mon r.months ∧
    DenotesDays .dayOfWeek dow r.daysOfWeek r.anyDayOfWeek

/-- The descriptors, and the six fields each stands for. -/
def descriptors : List (String × String) :=
  [("yearly", "0 0 0 1 1 *"), ("annually", "0 0 0 1 1 *"), ("monthly", "0 0 0 1 * *"),
    ("weekly", "0 0 0 * * 0"), ("daily", "0 0 0 * * *"), ("midnight", "0 0 0 * * *"),
    ("hourly", "0 0 * * * *")]

theorem FirstOutside.not_forall {fs : List Field} {tokens : List (List Char)} {g : Field}
    (h : FirstOutside fs tokens g) : ¬ List.Forall₂ InGrammar fs tokens := by
  induction h with
  | here outside => exact fun hall => outside (List.forall₂_cons.1 hall).1
  | later inside h ih => exact fun hall => ih (List.forall₂_cons.1 hall).2

theorem fieldOf_eq_ok {expr : String} {f : Field} {token : List Char} {set : FieldSet}
    (h : fieldOf expr f token = .ok set) :
    InGrammar f token ∧ DenotesDays f token set.values set.unrestricted := by
  have hread : readField f token = .ok set := by
    unfold fieldOf at h
    cases hread : readField f token with
    | error reason => simp [hread, Except.mapError] at h
    | ok other => simpa [hread, Except.mapError] using h
  obtain ⟨parts, hparts, rfl⟩ := readField_eq_ok.1 hread
  exact ⟨⟨parts, hparts⟩, denotes_ofParts hparts⟩

theorem fieldOf_eq_error {expr : String} {f : Field} {token : List Char} {e : ParseError}
    (h : fieldOf expr f token = .error e) : e.field = f ∧ e.expr = expr ∧ ¬ InGrammar f token := by
  unfold fieldOf at h
  cases hread : readField f token with
  | ok set => simp [hread, Except.mapError] at h
  | error reason =>
    rw [hread] at h
    obtain rfl := Except.error.inj h
    refine ⟨rfl, rfl, ?_⟩
    rintro ⟨parts, hparts⟩
    have hok := readField_eq_ok.2 ⟨parts, hparts, rfl⟩
    rw [hread] at hok
    exact absurd hok (by simp)

/-- When the fields from some field on cannot be read, either this field is to blame or one after
it. -/
theorem blamed_or_later {α : Type} {expr : String} {f : Field} {token : List Char}
    {rest : FieldSet → Except ParseError α} {e : ParseError}
    (h : (fieldOf expr f token >>= rest) = .error e) :
    (e.expr = expr ∧ ∀ fs tokens, FirstOutside (f :: fs) (token :: tokens) e.field) ∨
      InGrammar f token ∧ ∃ set, rest set = .error e := by
  rcases bind_eq_error.1 h with herror | ⟨set, hset, hrest⟩
  · obtain ⟨hfield, hexpr, houtside⟩ := fieldOf_eq_error herror
    exact .inl ⟨hexpr, fun _ _ => hfield ▸ .here (hfield ▸ houtside)⟩
  · exact .inr ⟨(fieldOf_eq_ok hset).1, set, hrest⟩

theorem readFields_eq_ok {expr : String} {cs : List Char} {s : Schedule}
    (h : readFields expr cs = .ok s) :
    List.Forall₂ InGrammar Field.order (words cs) ∧
      ∃ r, s = .recurring r ∧ Spelled (words cs) r := by
  unfold readFields at h
  split at h
  · rename_i s m h' dom mon dow hwords
    simp only [bind_eq_ok, pure_eq_ok] at h
    obtain ⟨_, hs, _, hm, _, hh, _, hdom, _, hmon, _, hdow, rfl⟩ := h
    have hs := fieldOf_eq_ok hs
    have hm := fieldOf_eq_ok hm
    have hh := fieldOf_eq_ok hh
    have hdom := fieldOf_eq_ok hdom
    have hmon := fieldOf_eq_ok hmon
    have hdow := fieldOf_eq_ok hdow
    rw [hwords]
    constructor
    · exact .cons hs.1 (.cons hm.1 (.cons hh.1 (.cons hdom.1 (.cons hmon.1 (.cons hdow.1 .nil)))))
    · exact ⟨_, rfl, s, m, h', dom, mon, dow, rfl, hs.2.toDenotes, hm.2.toDenotes,
        hh.2.toDenotes, hdom.2, hmon.2.toDenotes, hdow.2⟩
  · exact absurd h (by simp)

/-- The fields are read from left to right, and the first that is outside the grammar ends the
reading. -/
theorem readFields_eq_error {expr : String} {cs : List Char} {e : ParseError}
    (h : readFields expr cs = .error e) (hsix : (words cs).length = 6) :
    e.expr = expr ∧ FirstOutside Field.order (words cs) e.field := by
  unfold readFields at h
  split at h
  · rename_i hwords
    rw [hwords]
    obtain ⟨hexpr, hblame⟩ | ⟨hs, _, h⟩ := blamed_or_later h
    · exact ⟨hexpr, hblame _ _⟩
    obtain ⟨hexpr, hblame⟩ | ⟨hm, _, h⟩ := blamed_or_later h
    · exact ⟨hexpr, .later hs (hblame _ _)⟩
    obtain ⟨hexpr, hblame⟩ | ⟨hh, _, h⟩ := blamed_or_later h
    · exact ⟨hexpr, .later hs (.later hm (hblame _ _))⟩
    obtain ⟨hexpr, hblame⟩ | ⟨hdom, _, h⟩ := blamed_or_later h
    · exact ⟨hexpr, .later hs (.later hm (.later hh (hblame _ _)))⟩
    obtain ⟨hexpr, hblame⟩ | ⟨hmon, _, h⟩ := blamed_or_later h
    · exact ⟨hexpr, .later hs (.later hm (.later hh (.later hdom (hblame _ _))))⟩
    obtain ⟨hexpr, hblame⟩ | ⟨hdow, _, h⟩ := blamed_or_later h
    · exact ⟨hexpr, .later hs (.later hm (.later hh (.later hdom (.later hmon (hblame _ _)))))⟩
    exact absurd h (by simp [pure, Except.pure])
  · rename_i ws hwords
    -- Other numbers of words are excluded by the assumption.
    match hlist : words cs, hsix with
    | [a, b, c, d, e', g], _ => exact absurd hlist (hwords a b c d e' g)

theorem readFields_ok_iff {expr : String} {cs : List Char} :
    (readFields expr cs).isOk = true ↔ List.Forall₂ InGrammar Field.order (words cs) := by
  cases hread : readFields expr cs with
  | ok s =>
    have hall := (readFields_eq_ok hread).1
    simp [Except.isOk, Except.toBool, hall]
  | error e =>
    simp only [Except.isOk, Except.toBool, Bool.false_eq_true, false_iff]
    intro hall
    exact (readFields_eq_error hread hall.length_eq.symm).2.not_forall hall

/-- Expressions without an at sign are their fields. The empty one, which has no words, is refused
before the words are counted. -/
theorem parse_eq_readFields {expr : String} (h : (trim expr.toList).head? ≠ some '@') :
    parse expr = readFields expr (trim expr.toList) ∨
      words (trim expr.toList) = [] ∧
        parse expr = .error ⟨.expression, expr, .emptyExpression⟩ := by
  unfold parse
  split
  · rename_i hempty
    exact .inr ⟨by rw [hempty]; rfl, rfl⟩
  · rename_i hat
    exact absurd (by rw [hat]; rfl) h
  · exact .inl rfl

theorem descriptors_read :
    ∀ d ∈ descriptors, dropBeginning "date ".toList d.1.toList = none ∧
      fieldsOfDescriptor? d.1 = some d.2 ∧ trim d.2.toList = d.2.toList ∧
      (trim d.2.toList).head? ≠ some '@' ∧ words d.2.toList ≠ [] ∧
      (readFields d.2 d.2.toList).isOk = true := by
  decide +kernel

/-- A descriptor is read as its six fields. -/
theorem parse_descriptor {expr : String} {d : String × String} (hd : d ∈ descriptors)
    (h : trim expr.toList = '@' :: d.1.toList) :
    ∃ r, parse expr = .ok (.recurring r) ∧ parse d.2 = .ok (.recurring r) := by
  obtain ⟨hdate, hfields, htrim, hat, hwords, hok⟩ := descriptors_read d hd
  have hexpr : parse expr = readFields d.2 d.2.toList := by
    simp only [parse, h, readDescriptor, hdate, String.ofList_toList, hfields]
  have hform : parse d.2 = readFields d.2 d.2.toList := by
    rcases parse_eq_readFields hat with hread | ⟨hnone, -⟩
    · rw [hread, htrim]
    · exact absurd (htrim ▸ hnone) hwords
  cases hread : readFields d.2 d.2.toList with
  | error e => exact absurd hok (by simp [hread, Except.isOk, Except.toBool])
  | ok s =>
    obtain ⟨r, rfl, -⟩ := (readFields_eq_ok hread).2
    exact ⟨r, hexpr.trans hread, hform.trans hread⟩

/-- An expression without an at sign is read if and only if it is six words that are lists of parts
of the fields in their order. The sets are then what the words denote; otherwise, if there are six
words, the error names the field of the first word outside the grammar and holds the expression as
it was given. A descriptor is read as its six fields. -/
theorem parse_accepts_grammar (expr : String) :
    ((trim expr.toList).head? ≠ some '@' →
      (parses expr = true ↔ List.Forall₂ InGrammar Field.order (words (trim expr.toList))) ∧
      (∀ s, parse expr = .ok s → ∃ r, s = .recurring r ∧ Spelled (words (trim expr.toList)) r) ∧
      ∀ e, parse expr = .error e → (words (trim expr.toList)).length = 6 →
        e.expr = expr ∧ FirstOutside Field.order (words (trim expr.toList)) e.field) ∧
    ∀ d ∈ descriptors, trim expr.toList = '@' :: d.1.toList →
      ∃ r, parse expr = .ok (.recurring r) ∧ parse d.2 = .ok (.recurring r) := by
  refine ⟨fun hat => ?_, fun d hd h => parse_descriptor hd h⟩
  rcases parse_eq_readFields hat with hread | ⟨hwords, herror⟩
  · unfold parses
    rw [hread]
    exact ⟨readFields_ok_iff, fun s hs => (readFields_eq_ok hs).2,
      fun e he hsix => readFields_eq_error he hsix⟩
  · unfold parses
    rw [herror, hwords]
    refine ⟨?_, by simp, by simp⟩
    simp [Except.isOk, Except.toBool, Field.order]

theorem parse_officeHours :
    List.Forall₂ InGrammar Field.order (words (trim "0 */15 9-17 ? * mon-FRI".toList)) ∧
      (∃ r, parse " @daily " = .ok (.recurring r) ∧
        parse "0 0 0 * * *" = .ok (.recurring r)) ∧
      FirstOutside Field.order (words (trim "0 0 24 ? JAN,13 *".toList)) .hour := by
  have hat : (trim "0 */15 9-17 ? * mon-FRI".toList).head? ≠ some '@' := by decide +kernel
  have hok : parses "0 */15 9-17 ? * mon-FRI" = true := by decide +kernel
  have hbad : (trim "0 0 24 ? JAN,13 *".toList).head? ≠ some '@' := by decide +kernel
  have hsix : (words (trim "0 0 24 ? JAN,13 *".toList)).length = 6 := by decide +kernel
  have herror : parse "0 0 24 ? JAN,13 *" =
      .error ⟨.hour, "0 0 24 ? JAN,13 *", .outsideRange "24" 0 23⟩ := by
    decide +kernel
  have htrim : trim " @daily ".toList = '@' :: "daily".toList := by decide +kernel
  refine ⟨((parse_accepts_grammar _).1 hat).1.1 hok, ?_, ?_⟩
  · exact (parse_accepts_grammar _).2 ("daily", "0 0 0 * * *") (by decide) htrim
  · exact (((parse_accepts_grammar _).1 hbad).2.2 _ herror hsix).2

end CronScale.Schedule
