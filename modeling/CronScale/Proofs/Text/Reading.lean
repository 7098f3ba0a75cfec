import CronScale.Text.Blank
import CronScale.Text.Numeral
/-!
# Reading pieces and numerals

A text that is put together from pieces with a separator falls into these pieces again, as long as
no piece holds the separator. A numeral is read if and only if it has the form of one and its
value is within the limit.
-/

namespace CronScale.Text

theorem cut_eq_none {sep : Char} {cs : List Char} : cut sep cs = none ↔ sep ∉ cs := by
  induction cs with
  | nil => simp [cut]
  | cons c cs ih =>
    by_cases hc : c = sep
    · simp [cut, hc]
    · have hne : ¬ sep = c := fun h => hc h.symm
      simp [cut, hc, hne, ih]

theorem cut_append {sep : Char} {a b : List Char} (h : sep ∉ a) :
    cut sep (a ++ sep :: b) = some (a, b) := by
  induction a with
  | nil => simp [cut]
  | cons c cs ih =>
    simp only [List.mem_cons, not_or] at h
    have hne : ¬ c = sep := fun hc => h.1 hc.symm
    simp [cut, hne, ih h.2]

theorem eq_append_of_cut {sep : Char} {cs a b : List Char} (h : cut sep cs = some (a, b)) :
    cs = a ++ sep :: b ∧ sep ∉ a := by
  induction cs generalizing a with
  | nil => exact absurd h.symm (Option.some_ne_none _)
  | cons c cs ih =>
    by_cases hc : c = sep
    · simp only [cut, hc, beq_self_eq_true, if_true, Option.some.injEq, Prod.mk.injEq] at h
      obtain ⟨rfl, rfl⟩ := h
      exact ⟨hc ▸ rfl, List.not_mem_nil⟩
    · simp only [cut, beq_iff_eq, hc, if_false] at h
      obtain ⟨⟨a', b'⟩, hcut, hparts⟩ := Option.map_eq_some_iff.1 h
      obtain ⟨rfl, rfl⟩ := Prod.mk.inj hparts
      obtain ⟨rfl, hnot⟩ := ih hcut
      have hne : ¬ sep = c := fun heq => hc heq.symm
      exact ⟨rfl, by simp [hne, hnot]⟩

theorem splitOn_of_not_mem {sep : Char} {cs : List Char} (h : sep ∉ cs) :
    splitOn sep cs = [cs] := by
  induction cs with
  | nil => rfl
  | cons c cs ih =>
    simp only [List.mem_cons, not_or] at h
    have hne : ¬ c = sep := fun hc => h.1 hc.symm
    have htail : splitBy (· == sep) cs = [cs] := ih h.2
    simp [splitOn, splitBy, hne, htail]

theorem splitOn_append {sep : Char} {a b : List Char} (h : sep ∉ a) :
    splitOn sep (a ++ sep :: b) = a :: splitOn sep b := by
  induction a with
  | nil => simp [splitOn, splitBy]
  | cons c cs ih =>
    simp only [List.mem_cons, not_or] at h
    have hne : ¬ c = sep := fun hc => h.1 hc.symm
    have htail : splitBy (· == sep) (cs ++ sep :: b) = cs :: splitBy (· == sep) b := ih h.2
    simp [splitOn, splitBy, hne, htail]

/-- Texts without the separator are what their list falls into. -/
theorem splitOn_intercalate {sep : Char} {texts : List (List Char)} (hne : texts ≠ [])
    (h : ∀ text ∈ texts, sep ∉ text) :
    splitOn sep (List.intercalate [sep] texts) = texts := by
  induction texts with
  | nil => exact absurd rfl hne
  | cons text rest ih =>
    have hhere : sep ∉ text := h text List.mem_cons_self
    cases rest with
    | nil => simpa using splitOn_of_not_mem hhere
    | cons next rest =>
      have hrest := ih (by simp) fun other hother => h other (List.mem_cons_of_mem _ hother)
      have hjoin : List.intercalate [sep] (text :: next :: rest) =
          text ++ sep :: List.intercalate [sep] (next :: rest) := by simp
      rw [hjoin, splitOn_append hhere, hrest]

/-- A text that does not begin with a blank begins with its first word. -/
theorem exists_words_cons {c : Char} (h : isBlank c = false) (cs : List Char) :
    ∃ w ws, words (c :: cs) = (c :: w) :: ws := by
  cases hrest : splitBy isBlank cs with
  | nil => exact absurd hrest (splitBy_ne_nil _ _)
  | cons w ws => exact ⟨w, ws.filter (· != []), by simp [words, splitBy, h, hrest]⟩

/-- A text of ASCII digits, at least one. -/
def IsDigits (cs : List Char) : Prop := cs ≠ [] ∧ ∀ c ∈ cs, c.isDigit = true

/-- A text of ASCII digits, after an optional plus sign, and its value, which is at most `limit`. -/
inductive IsNumeral (limit : Nat) : List Char → Nat → Prop
  | plain {cs : List Char} (digits : IsDigits cs) (bounded : digitsValue cs ≤ limit) :
    IsNumeral limit cs (digitsValue cs)
  | signed {cs : List Char} (digits : IsDigits cs) (bounded : digitsValue cs ≤ limit) :
    IsNumeral limit ('+' :: cs) (digitsValue cs)

theorem digit?_eq_some {c : Char} : (∃ d, digit? c = some d) ↔ c.isDigit = true := by
  unfold digit?
  split <;> simp_all [Char.isDigit, Char.le_def]

theorem le_foldl_digits (acc : Nat) (cs : List Char) :
    acc ≤ cs.foldl (fun acc c => acc * 10 + (digit? c).getD 0) acc := by
  induction cs generalizing acc with
  | nil => exact Nat.le_refl _
  | cons c cs ih =>
    have h := ih (acc * 10 + (digit? c).getD 0)
    rw [List.foldl_cons]
    omega

/-- The reader stops at the first digit too many; as numbers grow with each digit, it is the whole
number that is too large then. -/
theorem readDigits_eq_ok {limit acc n : Nat} {cs : List Char} (hacc : acc ≤ limit) :
    readDigits limit acc cs = .ok n ↔
      (∀ c ∈ cs, c.isDigit = true) ∧
        cs.foldl (fun acc c => acc * 10 + (digit? c).getD 0) acc = n ∧ n ≤ limit := by
  induction cs generalizing acc with
  | nil =>
    simp only [readDigits, Except.ok.injEq, List.not_mem_nil, List.foldl_nil]
    constructor
    · rintro rfl
      exact ⟨fun _ h => h.elim, rfl, hacc⟩
    · exact fun h => h.2.1
  | cons c cs ih =>
    rw [List.forall_mem_cons, List.foldl_cons, readDigits]
    cases hc : digit? c with
    | none =>
      have hdigit : ¬ c.isDigit = true := by
        rw [← digit?_eq_some, hc]
        simp
      simp [hdigit]
    | some d =>
      have hdigit : c.isDigit = true := digit?_eq_some.1 ⟨d, hc⟩
      simp only [Option.getD_some, hdigit, true_and]
      by_cases hd : acc * 10 + d ≤ limit
      · rw [if_pos hd]
        exact ih hd
      · have hgrows := le_foldl_digits (acc * 10 + d) cs
        rw [if_neg hd]
        constructor
        · simp
        · rintro ⟨_, hn, hle⟩
          omega

theorem readNumeral_of_digits {limit : Nat} {cs : List Char} (h : IsDigits cs) :
    readNumeral limit cs = readDigits limit 0 cs ∧
      readNumeral limit ('+' :: cs) = readDigits limit 0 cs := by
  cases cs with
  | nil => exact absurd rfl h.1
  | cons c cs =>
    have hplus : c ≠ '+' := by
      rintro rfl
      exact absurd (h.2 '+' List.mem_cons_self) (by decide)
    simp [readNumeral, hplus]

theorem readNumeral_eq_ok {limit n : Nat} {cs : List Char} :
    readNumeral limit cs = .ok n ↔ IsNumeral limit cs n := by
  constructor
  · intro h
    unfold readNumeral at h
    split at h
    · simp at h
    · simp at h
    · rename_i rest hrest
      obtain ⟨hdigits, rfl, hle⟩ := (readDigits_eq_ok (Nat.zero_le _)).1 h
      exact .signed ⟨hrest, hdigits⟩ hle
    · rename_i hne _ _
      obtain ⟨hdigits, rfl, hle⟩ := (readDigits_eq_ok (Nat.zero_le _)).1 h
      exact .plain ⟨hne, hdigits⟩ hle
  · intro h
    cases h with
    | plain digits bounded =>
      rw [(readNumeral_of_digits digits).1, readDigits_eq_ok (Nat.zero_le limit)]
      exact ⟨digits.2, rfl, bounded⟩
    | signed digits bounded =>
      rw [(readNumeral_of_digits digits).2, readDigits_eq_ok (Nat.zero_le limit)]
      exact ⟨digits.2, rfl, bounded⟩

/-- A numeral has no other characters than a plus sign and digits. -/
theorem IsNumeral.char {limit n : Nat} {cs : List Char} (h : IsNumeral limit cs n) {c : Char}
    (hc : c ∈ cs) : c = '+' ∨ c.isDigit = true := by
  cases h with
  | plain digits bounded => exact .inr (digits.2 c hc)
  | signed digits bounded =>
    rcases List.mem_cons.1 hc with rfl | hc
    · exact .inl rfl
    · exact .inr (digits.2 c hc)

theorem IsNumeral.ne_nil {limit n : Nat} {cs : List Char} (h : IsNumeral limit cs n) : cs ≠ [] := by
  cases h with
  | plain digits bounded => exact digits.1
  | signed digits bounded => exact List.cons_ne_nil _ _

end CronScale.Text
