import CronScale.Engine.Agenda
import CronScale.Text.Html
/-!
# The page of entries

The page shows one row for every entry of the agenda, with six cells: the resource, its namespace,
the id and the name of the job, and when it was and will be due. A time that is absent or empty is
shown as a dash. What a cell holds is escaped, so that it cannot change the page around it.
-/

namespace CronScale.Page

open CronScale.Text

def head : String :=
  "<!DOCTYPE html>\n<html>\n<head>\n  <meta charset=\"utf-8\">\n  <title>CronHPA jobs</title>\n" ++
    "</head>\n<body>\n<table border=\"1\">\n  <thead>\n    <tr><th>CronHPA</th>" ++
    "<th>Namespace</th><th>Id</th><th>Job</th><th>Pre</th><th>Next</th></tr>\n  </thead>\n" ++
    "  <tbody>"

def tail : String := "\n  </tbody>\n</table>\n</body>\n</html>\n"

def time : Option String → String
  | none => "-"
  | some s => if s = "" then "-" else s

def cells (e : EntryView) : List String :=
  [e.owner.name, e.owner.ns, e.id, e.name, time e.prev, time e.next]

def cell (s : String) : String := "      <td>" ++ escapeHtml s ++ "</td>\n"

def row (e : EntryView) : String :=
  "\n    <tr>\n" ++ String.join ((cells e).map cell) ++ "    </tr>"

def render (es : List EntryView) : String := head ++ String.join (es.map row) ++ tail

end CronScale.Page
