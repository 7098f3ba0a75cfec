import CronScale.Cluster.Home
import CronScale.Cluster.Scaler
/-!
# A scripted interface of the cluster

In a rehearsal the requests to the cluster are answered from a script, one after the other, and
kept. When the script is used up every request is refused.
-/

namespace CronScale.Rehearsal

open CronScale.Cluster

/-- A script of answers, with the requests made so far. -/
structure ScriptedApi where
  script : List (Except String Answer) := []
  requests : List Request := []

instance : Inhabited ScriptedApi := ⟨{}⟩

namespace ScriptedApi

def exhausted : Answer := ⟨500, "no response scripted"⟩

def answer (r : Request) (s : ScriptedApi) : Except String Answer × ScriptedApi :=
  match s.script with
  | a :: rest => (a, ⟨rest, s.requests ++ [r]⟩)
  | [] => (.ok exhausted, { s with requests := s.requests ++ [r] })

def run {α : Type} (p : Procedure Api α) (s : ScriptedApi) : α × ScriptedApi := p.run answer s

end ScriptedApi

end CronScale.Rehearsal
