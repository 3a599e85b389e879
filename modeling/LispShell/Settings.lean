set_option autoImplicit false

/-!
# Settings

The prompt and the history file of an interactive session come from two variables of the
environment.  A history variable that is set but empty turns the history off; without one the
history lives in the home directory, if there is one.
-/

namespace LispShell

/-- What an interactive session is set up with. -/
structure Settings where
  prompt : String
  /-- the path of the history file, if a history is kept -/
  history : Option String
  deriving DecidableEq, Repr

namespace Settings

/-- The settings when nothing is known of the environment. -/
def standard : Settings := ⟨"> ", none⟩

instance : Inhabited Settings := ⟨standard⟩

/-- The history file of a home directory. -/
def historyIn (home : String) : String :=
  let name := ".cellsh_history"
  if home.isEmpty then name
  else if home.toList.getLast? = some '/' then home ++ name
  else home ++ "/" ++ name

/-- The settings of an environment: its home directory and the values of its variables. -/
def ofEnvironment (home : Option String) (lookup : String → Option String) : Settings where
  prompt := (lookup "CELLSH_PROMPT").getD standard.prompt
  history :=
    match lookup "CELLSH_HISTORY" with
    | some path => if path.isEmpty then none else some path
    | none => home.map historyIn

end Settings

end LispShell
