/-!
# Blanks, words and pieces of text

Text is taken apart as a list of characters. A blank is a character with the Unicode property
`White_Space`; trimming and splitting into words use no other notion of white space. The pieces
of a split, put together again with the separator between them, give the text back
(`join_splitOn`), and no piece holds the separator (`not_mem_of_mem_splitOn`).
-/

namespace CronScale.Text

/-- The characters with the Unicode property `White_Space`. -/
def isBlank (c : Char) : Bool :=
  let n := c.toNat
  (9 ≤ n && n ≤ 13) || n == 32 || n == 133 || n == 160 || n == 5760 ||
    (8192 ≤ n && n ≤ 8202) || n == 8232 || n == 8233 || n == 8239 || n == 8287 || n == 12288

def trimStart (cs : List Char) : List Char := cs.dropWhile isBlank

def trim (cs : List Char) : List Char := (trimStart (trimStart cs).reverse).reverse

/-- Cuts a text at every character that satisfies `p`; there is always at least one piece. -/
def splitBy (p : Char → Bool) : List Char → List (List Char)
  | [] => [[]]
  | c :: cs =>
    if p c then [] :: splitBy p cs
    else match splitBy p cs with
      | [] => [[c]]
      | w :: ws => (c :: w) :: ws

/-- The pieces between occurrences of a separator. -/
def splitOn (sep : Char) : List Char → List (List Char) := splitBy (· == sep)

/-- The maximal runs of characters that are not blank. -/
def words (cs : List Char) : List (List Char) := (splitBy isBlank cs).filter (· != [])

/-- The text before and after the first occurrence of a separator. -/
def cut (sep : Char) : List Char → Option (List Char × List Char)
  | [] => none
  | c :: cs => if c == sep then some ([], cs) else (cut sep cs).map fun p => (c :: p.1, p.2)

/-- What follows a given beginning. -/
def dropBeginning : List Char → List Char → Option (List Char)
  | [], cs => some cs
  | _ :: _, [] => none
  | x :: xs, c :: cs => if x == c then dropBeginning xs cs else none

/-- Whether a text is empty or holds blanks only. -/
def blank (s : String) : Bool := s.toList.all isBlank

/-- Cuts a string at the first occurrence of a separator. -/
def cutString (sep : Char) (s : String) : Option (String × String) :=
  (cut sep s.toList).map fun p => (String.ofList p.1, String.ofList p.2)

/-- The texts joined with a separator between neighbours. -/
def join (sep : String) (ss : List String) : String := String.intercalate sep ss

theorem splitBy_ne_nil (p : Char → Bool) (cs : List Char) : splitBy p cs ≠ [] := by
  cases cs with
  | nil => simp [splitBy]
  | cons c cs =>
    unfold splitBy
    split
    · simp
    · split <;> simp

theorem not_mem_of_mem_splitOn {sep : Char} {cs w : List Char} (h : w ∈ splitOn sep cs) :
    sep ∉ w := by
  induction cs generalizing w with
  | nil => simp_all [splitOn, splitBy]
  | cons c cs ih =>
    simp only [splitOn, splitBy] at h ih
    split at h
    · rcases List.mem_cons.1 h with rfl | h
      · simp
      · exact ih h
    · rename_i hc
      have hne : sep ≠ c := fun e => hc (by simp [e])
      split at h
      · simp_all
      · rename_i v vs hv
        rcases List.mem_cons.1 h with rfl | h
        · have : sep ∉ v := ih (by simp [hv])
          simp [hne, this]
        · exact ih (by simp [hv, h])

theorem join_splitBy (p : Char → Bool) (sep : Char) (h : ∀ c, p c = true → c = sep)
    (cs : List Char) : List.intercalate [sep] (splitBy p cs) = cs := by
  induction cs with
  | nil => rfl
  | cons c cs ih =>
    unfold splitBy
    cases hs : splitBy p cs with
    | nil => exact absurd hs (splitBy_ne_nil _ _)
    | cons v vs =>
      rw [hs] at ih
      by_cases hc : p c = true
      · rw [if_pos hc, h c hc]
        conv => rhs; rw [← ih]
        rfl
      · rw [if_neg hc]
        conv => rhs; rw [← ih]
        cases vs <;> rfl

theorem join_splitOn (sep : Char) (cs : List Char) :
    List.intercalate [sep] (splitOn sep cs) = cs :=
  join_splitBy _ sep (fun c hc => by simpa using hc) cs

theorem cut_eq_some {sep : Char} {cs a b : List Char} (h : cut sep cs = some (a, b)) :
    cs = a ++ sep :: b ∧ sep ∉ a := by
  induction cs generalizing a with
  | nil => simp [cut] at h
  | cons c cs ih =>
    unfold cut at h
    split at h
    · rename_i hc
      simp only [Option.some.injEq, Prod.mk.injEq] at h
      simp_all
    · rename_i hc
      obtain ⟨⟨x, y⟩, hxy, he⟩ := Option.map_eq_some_iff.1 h
      simp only [Prod.mk.injEq] at he
      obtain ⟨rfl, rfl⟩ := he
      obtain ⟨h₁, h₂⟩ := ih hxy
      refine ⟨by simp [h₁], ?_⟩
      simp only [List.mem_cons, not_or]
      exact ⟨fun hh => hc (by simp [hh]), h₂⟩

end CronScale.Text
