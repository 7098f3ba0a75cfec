import CronScale.Page
/-!
# Reading the page back

A page is read from its start to its end, as tags with the text in front of each of them; what a
text means is found by resolving its character references. Reading a text that was escaped gives the
text itself (`unescape_escapeHtml`) and never a tag (`readText_escapeHtml`), so that the page of any
entries is read as the fixed head, a row of six cells for each entry, and the fixed tail
(`Page.read_render`).
-/

namespace CronScale.Text

/-- A text with its character references resolved. -/
def unescape : List Char → List Char
  | [] => []
  | '&' :: 'a' :: 'm' :: 'p' :: ';' :: cs => '&' :: unescape cs
  | '&' :: 'l' :: 't' :: ';' :: cs => '<' :: unescape cs
  | '&' :: 'g' :: 't' :: ';' :: cs => '>' :: unescape cs
  | '&' :: 'q' :: 'u' :: 'o' :: 't' :: ';' :: cs => '\"' :: unescape cs
  | '&' :: '#' :: 'x' :: '2' :: '7' :: ';' :: cs => '\'' :: unescape cs
  | '&' :: '#' :: 'x' :: '2' :: 'F' :: ';' :: cs => '/' :: unescape cs
  | c :: cs => c :: unescape cs

theorem unescape_cons_of_ne {c : Char} (h : c ≠ '&') (cs : List Char) :
    unescape (c :: cs) = c :: unescape cs := by
  simp [unescape, h]

theorem unescape_escapeChar (c : Char) (cs : List Char) :
    unescape (escapeChar c ++ cs) = c :: unescape cs := by
  unfold escapeChar
  split
  · simp [unescape]
  · simp [unescape]
  · simp [unescape]
  · simp [unescape]
  · simp [unescape]
  · simp [unescape]
  · exact unescape_cons_of_ne ‹_› cs

/-- What was escaped is read as it was. -/
theorem unescape_flatMap_escapeChar (s rest : List Char) :
    unescape (s.flatMap escapeChar ++ rest) = s ++ unescape rest := by
  induction s with
  | nil => rfl
  | cons c s ih =>
    rw [List.flatMap_cons, List.append_assoc, unescape_escapeChar, ih, List.cons_append]

/-- An escaped character opens no tag. -/
theorem lt_not_mem_escapeChar (c : Char) : '<' ∉ escapeChar c := by
  unfold escapeChar
  split
  · decide
  · decide
  · decide
  · decide
  · decide
  · decide
  · rename_i hne _ _ _ _
    exact fun h => hne (List.mem_singleton.1 h).symm

theorem lt_not_mem_flatMap_escapeChar (s : List Char) : '<' ∉ s.flatMap escapeChar := fun h => by
  obtain ⟨c, _, hc⟩ := List.mem_flatMap.1 h
  exact lt_not_mem_escapeChar c hc

end CronScale.Text

namespace CronScale.Page

open CronScale.Text

/-! ### Tags and texts -/

/-- A tag with the text in front of it. -/
structure Piece where
  text : String
  tag : String
  deriving DecidableEq, Repr

def Piece.ofLists (text tag : List Char) : Piece :=
  ⟨String.ofList (unescape text), String.ofList tag⟩

mutual

/-- Reads on outside of a tag, after some text; hands on the text behind the last tag. -/
def readText (text : List Char) : List Char → Option (List Piece × List Char)
  | [] => some ([], text)
  | c :: cs => if c = '<' then readTag text [] cs else readText (text ++ [c]) cs

/-- Reads on inside of a tag, which has to end. -/
def readTag (text tag : List Char) : List Char → Option (List Piece × List Char)
  | [] => none
  | c :: cs =>
    if c = '>' then (readText [] cs).map fun r => (.ofLists text tag :: r.1, r.2)
    else readTag text (tag ++ [c]) cs

end

/-- The tags of a page with the texts in front of them, and the text behind the last one. -/
def pieces? (page : String) : Option (List Piece × String) :=
  (readText [] page.toList).map fun r => (r.1, String.ofList (unescape r.2))

/-- A page is read part by part, if no part ends inside of a tag. -/
theorem readText_append {text a b rest : List Char} {ps : List Piece}
    (h : readText text a = some (ps, rest)) :
    readText text (a ++ b) = (readText rest b).map fun r => (ps ++ r.1, r.2) := by
  have hboth : (∀ text ps, readText text a = some (ps, rest) →
        readText text (a ++ b) = (readText rest b).map fun r => (ps ++ r.1, r.2)) ∧
      ∀ text tag ps, readTag text tag a = some (ps, rest) →
        readTag text tag (a ++ b) = (readText rest b).map fun r => (ps ++ r.1, r.2) := by
    clear h
    induction a with
    | nil =>
      refine ⟨fun text ps h => ?_, fun text tag ps h => by simp [readTag] at h⟩
      obtain ⟨rfl, rfl⟩ := Prod.mk.inj (Option.some.inj h)
      simp
    | cons c a ih =>
      refine ⟨fun text ps h => ?_, fun text tag ps h => ?_⟩
      · rw [readText] at h
        rw [List.cons_append, readText]
        split at h
        · rw [if_pos ‹_›]
          exact ih.2 _ _ _ h
        · rw [if_neg ‹_›]
          exact ih.1 _ _ h
      · rw [readTag] at h
        rw [List.cons_append, readTag]
        split at h
        · rw [if_pos ‹_›]
          obtain ⟨⟨ps', rest'⟩, hrest, heq⟩ := Option.map_eq_some_iff.1 h
          obtain ⟨rfl, rfl⟩ := Prod.mk.inj heq
          rw [ih.1 _ _ hrest, Option.map_map]
          rfl
        · rw [if_neg ‹_›]
          exact ih.2 _ _ _ h
  exact hboth.1 text ps h

/-- A text without the start of a tag is text. -/
theorem readText_of_lt_not_mem (text : List Char) {s : List Char} (h : '<' ∉ s) :
    readText text s = some ([], text ++ s) := by
  induction s generalizing text with
  | nil => rw [readText, List.append_nil]
  | cons c s ih =>
    rw [List.mem_cons, not_or] at h
    rw [readText, if_neg (Ne.symm h.1), ih _ h.2, List.append_assoc, List.singleton_append]

/-! ### The page of entries -/

/-- What is shown for a time: a dash if there is none or if it is empty. -/
def shownTime (t : Option String) : String := (t.filter (· ≠ "")).getD "-"

/-- What the row of an entry shows. -/
def shown (e : EntryView) : List String :=
  [e.owner.name, e.owner.ns, e.id, e.name, shownTime e.prev, shownTime e.next]

def cellPieces (s : String) : List Piece := [⟨"\n      ", "td"⟩, ⟨s, "/td"⟩]

def rowPieces (e : EntryView) : List Piece :=
  ⟨"\n    ", "tr"⟩ :: (shown e).flatMap cellPieces ++ [⟨"\n    ", "/tr"⟩]

def headPieces : List Piece :=
  [⟨"", "!DOCTYPE html"⟩, ⟨"\n", "html"⟩, ⟨"\n", "head"⟩, ⟨"\n  ", "meta charset=\"utf-8\""⟩,
    ⟨"\n  ", "title"⟩, ⟨"CronHPA jobs", "/title"⟩, ⟨"\n", "/head"⟩, ⟨"\n", "body"⟩,
    ⟨"\n", "table border=\"1\""⟩, ⟨"\n  ", "thead"⟩, ⟨"\n    ", "tr"⟩, ⟨"", "th"⟩,
    ⟨"CronHPA", "/th"⟩, ⟨"", "th"⟩, ⟨"Namespace", "/th"⟩, ⟨"", "th"⟩, ⟨"Id", "/th"⟩, ⟨"", "th"⟩,
    ⟨"Job", "/th"⟩, ⟨"", "th"⟩, ⟨"Pre", "/th"⟩, ⟨"", "th"⟩, ⟨"Next", "/th"⟩, ⟨"", "/tr"⟩,
    ⟨"\n  ", "/thead"⟩, ⟨"\n  ", "tbody"⟩]

def tailPieces : List Piece :=
  [⟨"\n  ", "/tbody"⟩, ⟨"\n", "/table"⟩, ⟨"\n", "/body"⟩, ⟨"\n", "/html"⟩]

theorem readText_head : readText [] head.toList = some (headPieces, []) := by
  decide +kernel

theorem readText_tail : readText [] tail.toList = some (tailPieces, ['\n']) := by
  decide +kernel

theorem time_eq_shownTime (t : Option String) : time t = shownTime t := by
  cases t with
  | none => rfl
  | some s => by_cases h : s = "" <;> simp [time, shownTime, Option.filter, h]

theorem cells_eq_shown (e : EntryView) : cells e = shown e := by
  rw [cells, shown, time_eq_shownTime, time_eq_shownTime]

/-- Parts each of which is read in the same state and leaves it are read one after another. -/
theorem readText_flatMap {α : Type} {text : List Char} {f : α → List Char} {g : α → List Piece}
    (h : ∀ a, readText text (f a) = some (g a, text)) (as : List α) :
    readText text (as.flatMap f) = some (as.flatMap g, text) := by
  induction as with
  | nil => rfl
  | cons a as ih =>
    rw [List.flatMap_cons, readText_append (h a), ih]
    rfl

theorem readText_cell (s : String) :
    readText ['\n'] (cell s).toList = some (cellPieces s, ['\n']) := by
  have hopen : readText ['\n'] "      <td>".toList = some ([⟨"\n      ", "td"⟩], []) := by
    decide +kernel
  have hclose (text : List Char) : readText text "</td>\n".toList =
      some ([.ofLists text "/td".toList], ['\n']) := rfl
  have hcontent := readText_of_lt_not_mem [] (lt_not_mem_flatMap_escapeChar s.toList)
  have hs : unescape (s.toList.flatMap escapeChar) = s.toList := by
    simpa [unescape] using unescape_flatMap_escapeChar s.toList []
  have hescaped : (escapeHtml s).toList = s.toList.flatMap escapeChar := String.toList_ofList
  rw [cell, String.toList_append, String.toList_append, hescaped, List.append_assoc,
    readText_append hopen, readText_append hcontent, List.nil_append, hclose]
  simp [Piece.ofLists, hs, cellPieces]

theorem readText_row (e : EntryView) : readText [] (row e).toList = some (rowPieces e, []) := by
  have hopen : readText [] "\n    <tr>\n".toList = some ([⟨"\n    ", "tr"⟩], ['\n']) := by
    decide +kernel
  have hclose : readText ['\n'] "    </tr>".toList = some ([⟨"\n    ", "/tr"⟩], []) := by
    decide +kernel
  have hcells : readText ['\n'] (String.join ((cells e).map cell)).toList =
      some ((shown e).flatMap cellPieces, ['\n']) := by
    rw [String.toList_join, List.flatMap_map, cells_eq_shown]
    exact readText_flatMap readText_cell (shown e)
  rw [row, String.toList_append, String.toList_append, List.append_assoc, readText_append hopen,
    readText_append hcells, hclose]
  rfl

/-- The page of any entries is read as the head, a row for each entry, and the tail. -/
theorem pieces?_render (es : List EntryView) :
    pieces? (render es) = some (headPieces ++ es.flatMap rowPieces ++ tailPieces, "\n") := by
  have hrows : readText [] (String.join (es.map row)).toList =
      some (es.flatMap rowPieces, []) := by
    rw [String.toList_join, List.flatMap_map]
    exact readText_flatMap readText_row es
  have hend : String.ofList (unescape ['\n']) = "\n" := by decide +kernel
  rw [pieces?, render, String.toList_append, String.toList_append, List.append_assoc,
    readText_append readText_head, readText_append hrows, readText_tail]
  simp [hend]

/-! ### The rows of the table -/

/-- What is between the start and the end of the body of a table. -/
def body (ps : List Piece) : List Piece :=
  ((ps.dropWhile (·.tag != "tbody")).drop 1).takeWhile (·.tag != "/tbody")

/-- The rows of a body, each with the texts of its cells; outside of a row only rows may start, and
inside of one only cells, which hold nothing but a text. -/
def rows? : Option (List String) → List Piece → Option (List (List String))
  | none, [] => some []
  | none, ⟨_, "tr"⟩ :: ps => rows? (some []) ps
  | some cells, ⟨_, "td"⟩ :: ⟨s, "/td"⟩ :: ps => rows? (some (cells ++ [s])) ps
  | some cells, ⟨_, "/tr"⟩ :: ps => (rows? none ps).map (cells :: ·)
  | _, _ => none

def tableRows? (page : String) : Option (List (List String)) :=
  (pieces? page).bind fun r => rows? none (body r.1)

def tags? (page : String) : Option (List String) :=
  (pieces? page).map fun r => r.1.map Piece.tag

/-- The tags of a row. -/
def rowTags : List String :=
  ["tr", "td", "/td", "td", "/td", "td", "/td", "td", "/td", "td", "/td", "td", "/td", "/tr"]

theorem tags_rowPieces (e : EntryView) : (rowPieces e).map Piece.tag = rowTags := rfl

theorem tags_flatMap_rowPieces (es : List EntryView) :
    (es.flatMap rowPieces).map Piece.tag = (List.replicate es.length rowTags).flatten := by
  induction es with
  | nil => rfl
  | cons e es ih =>
    rw [List.flatMap_cons, List.map_append, tags_rowPieces, ih, List.length_cons,
      List.replicate_succ, List.flatten_cons]

theorem body_pieces (es : List EntryView) :
    body (headPieces ++ es.flatMap rowPieces ++ tailPieces) = es.flatMap rowPieces := by
  have hrows : ∀ p ∈ es.flatMap rowPieces, (p.tag != "/tbody") = true := by
    intro p hp
    have hmem := List.mem_map_of_mem (f := Piece.tag) hp
    rw [tags_flatMap_rowPieces] at hmem
    obtain ⟨tags, htags, htag⟩ := List.mem_flatten.1 hmem
    rw [List.eq_of_mem_replicate htags] at htag
    exact (show ∀ t ∈ rowTags, (t != "/tbody") = true by decide +kernel) p.tag htag
  have hhead (ps : List Piece) :
      ((headPieces ++ ps).dropWhile (·.tag != "tbody")).drop 1 = ps := rfl
  rw [body, List.append_assoc, hhead, List.takeWhile_append_of_pos hrows]
  exact List.append_nil _

theorem rows?_flatMap_rowPieces (es : List EntryView) :
    rows? none (es.flatMap rowPieces) = some (es.map shown) := by
  induction es with
  | nil => rfl
  | cons e es ih =>
    have hrow : rows? none (rowPieces e ++ es.flatMap rowPieces) =
      (rows? none (es.flatMap rowPieces)).map (shown e :: ·) := rfl
    rw [List.flatMap_cons, hrow, ih]
    rfl

/-- The page of any entries can be read back. It is the fixed head, a row for each entry in their
order, and the fixed tail; its table has the rows that the entries show; and what tags there are
depends on nothing but the number of the entries. -/
theorem page_read_back (es : List EntryView) :
    pieces? (render es) = some (headPieces ++ es.flatMap rowPieces ++ tailPieces, "\n") ∧
      tableRows? (render es) = some (es.map fun e =>
        [e.owner.name, e.owner.ns, e.id, e.name, shownTime e.prev, shownTime e.next]) ∧
      tags? (render es) = some (headPieces.map Piece.tag ++
        (List.replicate es.length rowTags).flatten ++ tailPieces.map Piece.tag) := by
  have hpieces := pieces?_render es
  refine ⟨hpieces, ?_, ?_⟩
  · rw [tableRows?, hpieces, Option.bind_some, body_pieces, rows?_flatMap_rowPieces]
    rfl
  · rw [tags?, hpieces, Option.map_some, List.map_append, List.map_append, tags_flatMap_rowPieces]

end CronScale.Page
