import OrderedStore.Message
import OrderedStore.Tour

/-!
# The tour as a program
-/

/-- Print the tour. -/
def main : IO Unit :=
  match OrderedStore.Tour.output with
  | .ok text => IO.print text
  | .error fault => throw (IO.userError fault.message)
