import Rootfinder.Fault

namespace Rootfinder.Journal

def name : String := "polyroot"

def levels : List (String × Int) :=
  [("CRITICAL", 50), ("FATAL", 50), ("ERROR", 40), ("WARN", 30), ("WARNING", 30), ("INFO", 20),
   ("DEBUG", 10), ("NOTSET", 0)]

def defaultLevel : Value := .int 20

def level (given : Value) : Except (Fault Float) Value :=
  match given with
  | .int _ | .bool _ => .ok given
  | .text s => match levels.lookup s with
    | some k => .ok (.int k)
    | none => .error (.unknownName s)
  | _ => .error .wrongType

end Rootfinder.Journal
