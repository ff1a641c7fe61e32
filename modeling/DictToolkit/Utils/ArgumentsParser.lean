/-!
# `ArgumentsParser`

`utils/arguments_parser.{h,cpp}` and `utils/arguments_and_options.h` as the code computes them:
the specs of options and of arguments, `validateSpecs`, `parseArguments` with the lines it prints
to `stderr`, `printUsage`, and the accessors of `ArgumentsAndOptions`.

An `std::unordered_map` is a list of entries (`UnorderedMap`), read through `find` and written
through `operator[]`, which replaces the value of a key already there and adds the key otherwise,
so a key is never in two entries. Only `printUsage` and the loop that sets default values iterate
over a map. The standard leaves the order of that iteration unspecified, and the model takes the
list's: the defaults do not depend on it (`find_defaultOptions`), and the order of the options in
the usage text is the one thing that does. An iterator into the argument specs is the suffix of the
list it points to. `argv` is the list of the `argc` strings of the command line. The accessors
that `ASSERT` their key return `none` where the assertion fails. The logging of `AKLOGE` is not
modelled: it does not change what the functions return.
-/

namespace DictToolkit

/-! ## Maps -/

namespace UnorderedMap

variable {V : Type}

/-- `std::unordered_map::find`: the value under a key, if any. -/
def find : List (String × V) → String → Option V
  | [], _ => none
  | (k, v) :: m, key => if k = key then some v else find m key

/-- `m[key] = value`: replaces the value under `key`, or adds the entry. -/
def assign : List (String × V) → String → V → List (String × V)
  | [], key, value => [(key, value)]
  | (k, v) :: m, key, value => if k = key then (k, value) :: m else (k, v) :: assign m key value

/-- `m[key].push_back(value)`, on a map of vectors: `operator[]` starts an absent key with the
empty vector. -/
def pushBack (m : List (String × List String)) (key value : String) : List (String × List String) :=
  assign m key ((find m key).getD [] ++ [value])

end UnorderedMap

open UnorderedMap

/-! ## Specs -/

/-- `OptionSpec`. -/
structure OptionSpec where
  needsValue : Bool
  valueName : String
  defaultValue : String
  description : String
  deriving DecidableEq, Repr

/-- `OptionSpec::keyValueOption`. -/
def OptionSpec.keyValueOption (valueName defaultValue description : String) : OptionSpec :=
  ⟨true, valueName, defaultValue, description⟩

/-- `OptionSpec::switchOption`. -/
def OptionSpec.switchOption (description : String) : OptionSpec :=
  ⟨false, "", "", description⟩

/-- `ArgumentSpec`. -/
structure ArgumentSpec where
  name : String
  minCount : Nat
  maxCount : Nat
  description : String
  deriving DecidableEq, Repr

/-- `ArgumentSpec::singleArgument`. -/
def ArgumentSpec.singleArgument (name description : String) : ArgumentSpec :=
  ⟨name, 1, 1, description⟩

/-- `ArgumentSpec::variableLengthArguments`. -/
def ArgumentSpec.variableLengthArguments (name : String) (minCount maxCount : Nat)
    (description : String) : ArgumentSpec :=
  ⟨name, minCount, maxCount, description⟩

/-- `ArgumentSpec::UNLIMITED_COUNT` (line 24): `S_INT_MAX`, that is `(1 << 31) - 1`. -/
def ArgumentSpec.UNLIMITED_COUNT : Nat := 2147483647

/-- `ArgumentsParser`: the option specs by name, and the argument specs in order. -/
structure ArgumentsParser where
  optionSpecs : List (String × OptionSpec)
  argumentSpecs : List ArgumentSpec

/-! ## `ArgumentsAndOptions` -/

/-- `ArgumentsAndOptions`: the option values by name and the arguments by spec name. -/
structure ArgumentsAndOptions where
  isValid : Bool
  options : List (String × String)
  arguments : List (String × List String)
  deriving DecidableEq, Repr

namespace ArgumentsAndOptions

/-- The default constructor: the invalid result. -/
def invalid : ArgumentsAndOptions := ⟨false, [], []⟩

/-- `hasOption`. -/
def hasOption (r : ArgumentsAndOptions) (optionName : String) : Bool :=
  (find r.options optionName).isSome

/-- `getOptionValue`. -/
def getOptionValue (r : ArgumentsAndOptions) (optionName : String) : Option String :=
  find r.options optionName

theorem hasOption_eq_isSome (r : ArgumentsAndOptions) (optionName : String) :
    r.hasOption optionName = (r.getOptionValue optionName).isSome := rfl

/-- `hasArgument`: an entry, and a non-empty one. -/
def hasArgument (r : ArgumentsAndOptions) (name : String) : Bool :=
  match find r.arguments name with
  | some arguments => !arguments.isEmpty
  | none => false

/-- `getSingleArgument`: the first argument of a non-empty entry. -/
def getSingleArgument (r : ArgumentsAndOptions) (name : String) : Option String :=
  (find r.arguments name).bind List.head?

/-- `getVariableLengthArguments`. -/
def getVariableLengthArguments (r : ArgumentsAndOptions) (name : String) : Option (List String) :=
  find r.arguments name

end ArgumentsAndOptions

namespace ArgumentsParser

/-! ## `validateSpecs` -/

/-- The loop of `validateSpecs` (lines 28-45) from the names seen so far: a spec with
`minCount = maxCount = 0`, a variable-length spec that is not the last one, and a name already
seen are rejected. -/
def validateSpecsFrom (argumentNameSet : List String) : List ArgumentSpec → Bool
  | [] => true
  | spec :: rest =>
    if spec.minCount = 0 ∧ spec.maxCount = 0 then false
    else if spec.minCount ≠ spec.maxCount ∧ rest ≠ [] then false
    else if spec.name ∈ argumentNameSet then false
    else validateSpecsFrom (spec.name :: argumentNameSet) rest

/-- `ArgumentsParser::validateSpecs` (lines 26-47). -/
def validateSpecs (p : ArgumentsParser) : Bool :=
  validateSpecsFrom [] p.argumentSpecs

/-! ## `parseArguments` -/

/-- Why `parseArguments` returns the invalid result. -/
inductive ParseError
  | invalidArgc
  | unknownOption (optionName : String)
  | missingArgument (optionName : String)
  | tooManyArguments
  | notEnoughArguments (minCount : Nat) (name : String)
  deriving DecidableEq, Repr

/-- The line an error prints to `stderr` when `printErrorMessage` is set (lines 118, 127, 138 and
155); `argc <= 0` is only logged. -/
def ParseError.message : ParseError → String
  | .invalidArgc => ""
  | .unknownOption optionName => "Unknown option: \x27" ++ optionName ++ "\x27\n"
  | .missingArgument optionName => "Missing argument for option \x27" ++ optionName ++ "\x27\n"
  | .tooManyArguments => "Too many arguments.\n"
  | .notEnoughArguments minCount name =>
    "Not enough arguments. " ++ toString minCount ++ " argumant(s) required for <" ++ name ++ ">\n"

/-- The default values (lines 99-107): those of the options that need a value and have a
non-empty default. -/
def defaultOptions (optionSpecs : List (String × OptionSpec)) : List (String × String) :=
  optionSpecs.foldl (fun options entry =>
    if entry.2.needsValue ∧ entry.2.defaultValue ≠ "" then assign options entry.1 entry.2.defaultValue
    else options) []

/-- Whether the loop reads a token as an option (line 112): `-` and at least one more character. -/
def isOption (arg : String) : Bool :=
  arg.length > 1 ∧ arg.front = '-'

/-- An argument (lines 135-145): it goes to the spec `argumentSpecIt` points to, which is left as
soon as it holds `maxCount` arguments. -/
def pushArgument (arguments : List (String × List String)) (argumentSpecIt : List ArgumentSpec)
    (arg : String) : Except ParseError (List (String × List String) × List ArgumentSpec) :=
  match argumentSpecIt with
  | [] => .error .tooManyArguments
  | spec :: specs =>
    let arguments := pushBack arguments spec.name arg
    if ((find arguments spec.name).getD []).length ≥ spec.maxCount then .ok (arguments, specs)
    else .ok (arguments, spec :: specs)

/-- The loop of `parseArguments` (lines 110-147) over the tokens still to read, from the options
and arguments set so far and the specs from `argumentSpecIt` on. An option that needs a value
takes the next token, whatever it is. -/
def parseLoop (optionSpecs : List (String × OptionSpec)) :
    List String → List (String × String) → List (String × List String) → List ArgumentSpec →
      Except ParseError (List (String × String) × List (String × List String) × List ArgumentSpec)
  | [], options, arguments, argumentSpecIt => .ok (options, arguments, argumentSpecIt)
  | arg :: rest, options, arguments, argumentSpecIt =>
    if isOption arg then
      let optionName := arg.drop 1
      match find optionSpecs optionName with
      | none => .error (.unknownOption optionName)
      | some spec =>
        if spec.needsValue then
          match rest with
          | [] => .error (.missingArgument optionName)
          | optionValue :: rest =>
            parseLoop optionSpecs rest (assign options optionName optionValue) arguments argumentSpecIt
        else parseLoop optionSpecs rest (assign options optionName "") arguments argumentSpecIt
    else
      match pushArgument arguments argumentSpecIt arg with
      | .error e => .error e
      | .ok (arguments, argumentSpecIt) => parseLoop optionSpecs rest options arguments argumentSpecIt

/-- The check after the loop (lines 149-160): only the spec `argumentSpecIt` points to is checked
for its `minCount`. -/
def checkMinCount (arguments : List (String × List String)) :
    List ArgumentSpec → Except ParseError Unit
  | [] => .ok ()
  | spec :: _ =>
    let actualcount := ((find arguments spec.name).map List.length).getD 0
    if spec.minCount > actualcount then .error (.notEnoughArguments spec.minCount spec.name)
    else .ok ()

/-- What `parseArguments` computes (lines 94-161), or why it gives up. -/
def parse (p : ArgumentsParser) :
    List String → Except ParseError (List (String × String) × List (String × List String))
  | [] => .error .invalidArgc
  | _ :: args =>
    match parseLoop p.optionSpecs args (defaultOptions p.optionSpecs) [] p.argumentSpecs with
    | .error e => .error e
    | .ok (options, arguments, argumentSpecIt) =>
      match checkMinCount arguments argumentSpecIt with
      | .error e => .error e
      | .ok () => .ok (options, arguments)

/-- `ArgumentsParser::parseArguments` (lines 92-162): the result, and what it prints to
`stderr`. -/
def parseArguments (p : ArgumentsParser) (argv : List String) (printErrorMessage : Bool) :
    ArgumentsAndOptions × String :=
  match p.parse argv with
  | .ok (options, arguments) => (⟨true, options, arguments⟩, "")
  | .error e => (ArgumentsAndOptions.invalid, if printErrorMessage then e.message else "")

/-! ## `printUsage` -/

/-- How the usage line shows an argument spec (lines 62-70): nothing when `minCount` is above 1. -/
def argumentUsage (argSpec : ArgumentSpec) : String :=
  if argSpec.minCount = 0 ∧ argSpec.maxCount = 1 then " [<" ++ argSpec.name ++ ">]"
  else if argSpec.minCount = 1 ∧ argSpec.maxCount = 1 then " <" ++ argSpec.name ++ ">"
  else if argSpec.minCount = 0 then " [<" ++ argSpec.name ++ ">...]"
  else if argSpec.minCount = 1 then " <" ++ argSpec.name ++ ">..."
  else ""

/-- The line of an option in the list of options (lines 76-84). -/
def optionDescription (optionName : String) (spec : OptionSpec) : String :=
  " -" ++ optionName ++ (if spec.needsValue then " <" ++ spec.valueName ++ ">" else "") ++
    "\t\t\t" ++ spec.description ++
    (if spec.needsValue ∧ spec.defaultValue ≠ "" then "\tdefault: " ++ spec.defaultValue else "") ++
    "\n"

/-- `ArgumentsParser::printUsage` (lines 49-90): what it prints to `stdout`, with the options in
the order of the list where the C++ iterates its `unordered_map` in an unspecified order. -/
def printUsage (p : ArgumentsParser) (commandName description : String) : String :=
  "Usage: " ++ commandName ++
    String.join (p.optionSpecs.map fun option =>
      " [-" ++ option.1 ++ (if option.2.needsValue then " <" ++ option.2.valueName ++ ">" else "") ++
        "]") ++
    String.join (p.argumentSpecs.map argumentUsage) ++
    "\n" ++ description ++ "\n\n" ++
    String.join (p.optionSpecs.map fun option => optionDescription option.1 option.2) ++
    String.join (p.argumentSpecs.map fun argSpec =>
      " <" ++ argSpec.name ++ ">\t\t\t" ++ argSpec.description ++ "\n") ++
    "\n\n"

end ArgumentsParser

end DictToolkit
