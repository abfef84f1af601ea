import FpgaFlow.Constraint

/-!
# Constraint files

A constraint file has one line per pin: the net, its clauses between bars, beginning with the pin,
and the resource as a comment. The net of a vector's bit is the signal's name with the number of the
bit in parentheses. The platform's commands follow after a blank line, with blank lines between
them.
-/

namespace FpgaFlow.Ucf

/-- The clause of an attribute, if it has one. -/
def clause? : Attribute → Option String
  | .location pin => some ("LOC=" ++ pin)
  | .ioStandard standard => some ("IOSTANDARD=" ++ standard)
  | .drive strength => some ("DRIVE=" ++ toString strength.toNat)
  | .misc clause => some clause
  | .other _ _ => none

/-- The clauses of a pin. The first one is its place, so there always is one. -/
def clauses (pin : String) (attributes : List Attribute) : List String :=
  ("LOC=" ++ pin) :: attributes.filterMap clause?

/-- The line that binds a net to a pin. -/
def line (net pin : String) (attributes : List Attribute) (resource : Resource) : String :=
  "NET \"" ++ net ++ "\" " ++ String.intercalate " | " (clauses pin attributes) ++ "; # " ++
    resource.name ++ "\n"

/-- The net of one bit of a vector. -/
def bitName (signal : String) (i : Nat) : String :=
  signal ++ "(" ++ toString i ++ ")"

/-- The nets of a signal with their pins. -/
def nets (c : SignalConstraint) : List (String × String) :=
  match c.pins with
  | [pin] => [(c.signal, pin)]
  | pins => pins.mapIdx fun i pin => (bitName c.signal i, pin)

/-- The lines of a signal, one per pin. -/
def signalLines (c : SignalConstraint) : List String :=
  (nets c).map fun (net, pin) => line net pin c.attributes c.resource

/-- What follows the lines of the signals. -/
def commandBlock : List String → String
  | [] => ""
  | commands => "\n" ++ String.intercalate "\n\n" commands

/-- The constraint file of a list of signals and a list of commands. -/
def render (signals : List SignalConstraint) (commands : List String) : String :=
  String.join (signals.flatMap signalLines) ++ commandBlock commands

end FpgaFlow.Ucf
