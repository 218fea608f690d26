import ShareCovenant.Text.Unicode

/-!
# Arguments

Options have a name and a value, as `--name value` or `--name=value`. Unless it is attached, a value does
not start with a dash, a lone dash aside. Options come in any order, and all of them at most once but for
those that repeat. Nothing else is an argument, apart from a closing `--`.
-/

namespace ShareCovenant.Arguments

/-- An option that a command takes. -/
structure Spec where
  name : String
  repeats : Bool := false

/-- The options of a command line, in order. -/
abbrev Values := List (String × String)

/-- The text after two dashes. -/
def longName? (arg : String) : Option (List Char) :=
  match arg.toList with
  | '-' :: '-' :: c :: rest => some (c :: rest)
  | _ => none

/-- Whether an argument can be the value of the option before it. -/
def isValue (arg : String) : Bool :=
  match arg.toList with
  | '-' :: _ :: _ => false
  | _ => true

/-- Whether an option can be added to those that were read. -/
def isAllowed (specs : List Spec) (name : String) (values : Values) : Bool :=
  specs.any fun spec => spec.name == name && (spec.repeats || values.all fun (n, _) => n != name)

/-- Reads options after those that were read, the latest of which comes first. -/
def readFrom (specs : List Spec) (values : Values) : List String → Option Values
  | [] => some values
  | ["--"] => some values
  | [arg] => do
      let (name, value) ← Text.cutFirst? '=' (← longName? arg)
      let name := String.ofList name
      if isAllowed specs name values then some ((name, String.ofList value) :: values) else none
  | arg :: value :: rest => do
      let name ← longName? arg
      match Text.cutFirst? '=' name with
      | some (name, attached) =>
          let name := String.ofList name
          if isAllowed specs name values then
            readFrom specs ((name, String.ofList attached) :: values) (value :: rest)
          else none
      | none =>
          let name := String.ofList name
          if isAllowed specs name values && isValue value then
            readFrom specs ((name, value) :: values) rest
          else none

/-- Reads the options of a command line. -/
def read (specs : List Spec) (args : List String) : Option Values :=
  (readFrom specs [] args).map List.reverse

/-- The value of an option. -/
def get? (values : Values) (name : String) : Option String := values.lookup name

/-- All values of an option, in order. -/
def getAll (values : Values) (name : String) : List String :=
  values.filterMap fun (n, v) => if n == name then some v else none

end ShareCovenant.Arguments
