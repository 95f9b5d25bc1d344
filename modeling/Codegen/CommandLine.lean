import Codegen.Sample
import Codegen.Text.Basic

/-!
# The command line

`targets` and `samples` list what there is, and `compile` prints the listings of samples. A flag
begins with one or two dashes. Its value is the next argument, or stands in the same argument
behind an equals sign or a blank; `--stats` takes a value in the latter way only. Flags that the
whole program knows may stand anywhere, and the last of several equal flags counts. Two dashes
alone end the flags of `compile`: what follows are names.
-/

namespace Codegen.CommandLine

/-- What to do. -/
inductive Command
  | targets | samples | compile
deriving DecidableEq, Repr

/-- What the arguments say. -/
structure Request where
  command : Option Command := none
  arch : String := "amd64"
  colors : Int := 0
  maxRounds : Int := 0
  stats : Bool := false
  names : List String := []
deriving Inhabited

/-- What is printed, and whether all went well. -/
structure Outcome where
  stdout : String
  ok : Bool
deriving DecidableEq, Repr, Inhabited

/-- The truth value of a word, in letters of either case. The empty word is true: a switch is turned
on by its name alone. -/
def readBool? (s : String) : Option Bool :=
  let word := String.ofList (s.toList.map Char.toLower)
  if ["", "1", "t", "true", "y", "yes"].contains word then some true
  else if ["0", "f", "false", "n", "no"].contains word then some false
  else none

/-- The roles an argument can have by its form. -/
inductive Argument
  /-- A command or a name; a dash alone is one too. -/
  | word (text : String)
  /-- A flag, and its value if that stands in the same argument. -/
  | flag (name : String) (value : Option String)
  /-- The two dashes behind which there are no flags. -/
  | endOfFlags
deriving DecidableEq, Repr

/-- Whether a character parts the name of a flag from its value. -/
def partsFlag (c : Char) : Bool := c == '=' || c == ' '

/-- A flag without its dashes: the name goes up to the first character that parts it from a
value. -/
def Argument.ofFlagBody (body : List Char) : Argument :=
  let name := String.ofList (body.takeWhile (!partsFlag ·))
  match body.dropWhile (!partsFlag ·) with
  | [] => .flag name none
  | _ :: value => .flag name (some (String.ofList value))

/-- The role of an argument. -/
def Argument.ofString (arg : String) : Argument :=
  match arg.toList with
  | ['-', '-'] => .endOfFlags
  | '-' :: '-' :: body => ofFlagBody body
  | '-' :: c :: body => ofFlagBody (c :: body)
  | _ => .word arg

/-- Whether a flag can stand without a value. -/
def isSwitch (r : Request) (name : String) : Bool := r.command = some .compile && name == "stats"

/-- Take a flag with its value into account; none if there is no such flag or value. -/
def setFlag (r : Request) (name value : String) : Option Request :=
  match name, r.command with
  | "log", _ | "verbose", _ | "v", _ => some r
  | "arch", some .compile => some { r with arch := value }
  | "colors", some .compile => (Text.readInt? value.toList).map fun n => { r with colors := n }
  | "max-rounds", some .compile =>
    (Text.readInt? value.toList).map fun n => { r with maxRounds := n }
  | "stats", some .compile => (readBool? value).map fun b => { r with stats := b }
  | _, _ => none

/-- Take an argument that is no flag into account: the command, or the name of a sample. -/
def setWord (r : Request) (word : String) : Option Request :=
  match r.command, word with
  | none, "targets" => some { r with command := some .targets }
  | none, "samples" => some { r with command := some .samples }
  | none, "compile" => some { r with command := some .compile }
  | some .compile, name => some { r with names := r.names ++ [name] }
  | _, _ => none

/-- Take the arguments behind the end of the flags into account; only `compile` has a use for
names. -/
def setNames (r : Request) (names : List String) : Option Request :=
  if r.command = some .compile then some { r with names := r.names ++ names } else none

/-- Read the arguments. -/
def parse (r : Request) : List String → Option Request
  | [] => some r
  | arg :: rest =>
    match Argument.ofString arg with
    | .endOfFlags => setNames r rest
    | .word text => (setWord r text).bind fun r => parse r rest
    | .flag name (some value) => (setFlag r name value).bind fun r => parse r rest
    | .flag name none =>
      if isSwitch r name then (setFlag r name "").bind fun r => parse r rest
      else
        match rest with
        | [] => none
        | value :: rest => (setFlag r name value).bind fun r => parse r rest

/-- The line that describes a target. -/
def targetLine (name : String) : String :=
  match Target.ofName name {} with
  | .error _ => ""
  | .ok (t, _) =>
    Text.padRight 8 name ++ " " ++ Text.padLeft 2 (toString t.catalog.regs.length)
      ++ " registers  " ++ Text.padLeft 3 (toString t.catalog.size) ++ " templates\n"

/-- The line that describes a sample. -/
def sampleLine (s : Sample) : String := Text.padRight 10 s.name ++ " " ++ s.doc ++ "\n"

/-- The line that tells how the registers of a function were allocated. -/
def statsLine (frames : Array Frame) (f : CompiledFunction) : String :=
  "// " ++ f.label.text
    ++ ": frame " ++ wordText ((frames[f.frame]?.map (·.size)).getD 0)
    ++ ", rounds " ++ toString f.alloc.rounds
    ++ ", spilled " ++ toString f.alloc.spilled.length
    ++ ", coalesced " ++ toString f.alloc.coalesced.length ++ "\n"

/-- The listing of a sample with its heading. -/
def listing (r : Request) (name : String) : Option String :=
  match Sample.compile r.arch name { colors := r.colors, maxRounds := r.maxRounds } {} with
  | .error _ _ => none
  | .ok p b => do
    let text ← p.render
    return "// sample " ++ name ++ ", target " ++ p.target ++ "\n"
      ++ (if r.stats then String.join (p.funcs.map (statsLine b.frames)) else "") ++ text

/-- The listings of samples, parted by empty lines, up to the first one that fails. -/
def listings (r : Request) (first : Bool) : List String → Outcome
  | [] => ⟨"", true⟩
  | name :: rest =>
    match listing r name with
    | none => ⟨"", false⟩
    | some text =>
      let tail := listings r false rest
      ⟨(if first then "" else "\n") ++ text ++ tail.stdout, tail.ok⟩

/-- Do what the arguments ask for. -/
def run (args : List String) : Outcome :=
  match parse {} args with
  | none => ⟨"", false⟩
  | some r =>
    match r.command with
    | none => ⟨"", false⟩
    | some .targets => ⟨String.join (Target.names.map targetLine), true⟩
    | some .samples => ⟨String.join (Sample.all.map sampleLine), true⟩
    | some .compile =>
      listings r true (if r.names.isEmpty then Sample.all.map (·.name) else r.names)

end Codegen.CommandLine
