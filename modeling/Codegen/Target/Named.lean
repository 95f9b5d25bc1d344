import Codegen.Error
import Codegen.Target.Amd64
import Codegen.Target.Arm64

/-!
# Targets by name, and bare machines

The targets that there are, by their names, and machines that are given by a catalog alone: nothing is
known of the frames of such a machine, and its assembler has just enough words to pass arguments in
registers and to reach a slot.
-/

namespace Codegen.Target

/-- The names of the targets, in alphabetical order. -/
def names : List String := ["amd64", "arm64"]

/-- Make the target with the given name. -/
def ofName (name : String) (s : Supply) : Except Error (Target × Supply) :=
  match name with
  | "amd64" => .ok (Amd64.make s)
  | "arm64" => .ok (Arm64.make s)
  | _ => .error (.unknownTarget name)

end Codegen.Target

namespace Codegen.Bare

/-- The code that puts arguments into the given registers. There is none if they do not suffice. -/
def placeArgs (params : List (Option Reg)) (args : List (Option Reg)) :
    Option (Code × List (Option Reg)) :=
  if params.length < args.length then none
  else some ((args.zip params).map fun (a, p) => .copy "mov &i0, &o0" p a, params.take args.length)

/-- The code that drops arguments. -/
def removeArgs (args : List (Option Reg)) : Code := [.plain ("add sp, " ++ toString args.length)]

/-- Arguments go in the parameter registers of the catalog, and links are not passed. -/
def convention (c : Catalog) : Convention :=
  { place := fun args _ => placeArgs c.params args, remove := removeArgs }

/-- How registers are spilled. -/
def spillCode : SpillCode where
  load fp off r := { text := "ld &o0, " ++ wordText off ++ "(&i0)", reads := [fp], writes := [some r] }
  store fp off r := { text := "st &i0, " ++ wordText off ++ "(&i1)", reads := [some r, fp] }

end Codegen.Bare
