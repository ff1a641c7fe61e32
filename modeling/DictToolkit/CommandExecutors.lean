import DictToolkit.Utils.ArgumentsParserCorrect

/-!
# Command executors

`command_executors/{diff,info,makedict}_executor.cpp`: the parser each command builds, the usage
it prints, and what its `run` returns and prints. `diff` and `info` are not implemented: whatever
their arguments, they say so on `stderr` and return 0. `makedict` parses its arguments first, and
returns 1 after its usage when they are invalid.

- `getArgumentsParser_validateSpecs`: the specs of every executor pass `validateSpecs`, none with a
  `minCount` above its `maxCount`; so the parser's theorems apply to each of them.
- `MakedictExecutor.run_exitCode_eq_zero_iff`: `makedict` returns 0 exactly when its options are
  well formed and two positional tokens follow the command name, and 1 after its usage otherwise.
- `MakedictExecutor.parseArguments_dicts`: a valid parse stores the first of them as `src_dict` and
  the second as `dest_dict`.
-/

namespace DictToolkit

open UnorderedMap ArgumentsParser

/-- What the `run` of a command does: the code it returns, and what it prints to `stdout` and to
`stderr`. -/
structure RunResult where
  exitCode : Int
  stdout : String
  stderr : String
  deriving DecidableEq, Repr

/-- The line a command that is not implemented prints to `stderr`. -/
def notImplementedMessage (commandName : String) : String :=
  "Command \x27" ++ commandName ++ "\x27 has not been implemented yet.\n"

/-- The `run` of a command that is not implemented: the line above, and 0. -/
def notImplementedRun (commandName : String) : RunResult :=
  ⟨0, "", notImplementedMessage commandName⟩

/-- The `printUsage` of a command: its name as a heading, then the usage of its parser. -/
def commandUsage (commandName : String) (p : ArgumentsParser) (description : String) : String :=
  "*** " ++ commandName ++ "\n" ++ p.printUsage commandName description

/-! ## `diff` -/

namespace DiffExecutor

/-- `DiffExecutor::COMMAND_NAME`. -/
def COMMAND_NAME : String := "diff"

/-- `DiffExecutor::getArgumentsParser`. -/
def getArgumentsParser : ArgumentsParser :=
  ⟨assign [] "p" (OptionSpec.switchOption "(plumbing) produce output suitable for a script"),
    [ArgumentSpec.singleArgument "dict1" "dictionary file",
      ArgumentSpec.singleArgument "dict2" "dictionary file"]⟩

/-- `DiffExecutor::printUsage`. -/
def printUsage : String :=
  commandUsage COMMAND_NAME getArgumentsParser "Shows differences between two dictionaries."

/-- `DiffExecutor::run`: its arguments are not read. -/
def run (_argv : List String) : RunResult :=
  notImplementedRun COMMAND_NAME

end DiffExecutor

/-! ## `info` -/

namespace InfoExecutor

/-- `InfoExecutor::COMMAND_NAME`. -/
def COMMAND_NAME : String := "info"

/-- `InfoExecutor::getArgumentsParser`. -/
def getArgumentsParser : ArgumentsParser :=
  ⟨assign [] "p" (OptionSpec.switchOption "(plumbing) produce output suitable for a script"),
    [ArgumentSpec.singleArgument "dict" "dictionary file name",
      ArgumentSpec.variableLengthArguments "word" 0 ArgumentSpec.UNLIMITED_COUNT
        "word to show information"]⟩

/-- `InfoExecutor::printUsage`. -/
def printUsage : String :=
  commandUsage COMMAND_NAME getArgumentsParser "Prints various information about a dictionary file."

/-- `InfoExecutor::run`: its arguments are not read. -/
def run (_argv : List String) : RunResult :=
  notImplementedRun COMMAND_NAME

end InfoExecutor

/-! ## `makedict` -/

namespace MakedictExecutor

/-- `MakedictExecutor::COMMAND_NAME`. -/
def COMMAND_NAME : String := "makedict"

/-- `MakedictExecutor::getArgumentsParser`. -/
def getArgumentsParser : ArgumentsParser :=
  ⟨assign (assign [] "o" (OptionSpec.keyValueOption "format" "2" "output format version: 2/4/combined"))
      "t" (OptionSpec.keyValueOption "mode" "off" "code point table switch: on/off/auto"),
    [ArgumentSpec.singleArgument "src_dict" "source dictionary file",
      ArgumentSpec.singleArgument "dest_dict" "output dictionary file"]⟩

/-- `MakedictExecutor::printUsage`. -/
def printUsage : String :=
  commandUsage COMMAND_NAME getArgumentsParser
    ("Converts a source dictionary file to one or several outputs.\n" ++
      "Source can be a binary dictionary file or a combined format file.\n" ++
      "Binary version 2 (Jelly Bean), 4, and combined format outputs are supported.")

/-- `MakedictExecutor::run`: the arguments are parsed with error messages on, and the usage is
printed when they are invalid. -/
def run (argv : List String) : RunResult :=
  let parsed := getArgumentsParser.parseArguments argv true
  if !parsed.1.isValid then ⟨1, printUsage, parsed.2⟩
  else ⟨0, "", parsed.2 ++ notImplementedMessage COMMAND_NAME⟩

end MakedictExecutor

/-! ## The executors' specs -/

/-- The specs of every executor pass `validateSpecs`, and none has a `minCount` above its
`maxCount`. -/
theorem getArgumentsParser_validateSpecs :
    ∀ p ∈ [DiffExecutor.getArgumentsParser, InfoExecutor.getArgumentsParser,
      MakedictExecutor.getArgumentsParser],
      p.validateSpecs = true ∧ ∀ s ∈ p.argumentSpecs, s.minCount ≤ s.maxCount := by
  decide

/-- A valid result's single argument, read through `getVariableLengthArguments`. -/
theorem ArgumentsAndOptions.getSingleArgument_of_getD {r : ArgumentsAndOptions} {name a : String}
    (h : (r.getVariableLengthArguments name).getD [] = [a]) : r.getSingleArgument name = some a := by
  unfold ArgumentsAndOptions.getVariableLengthArguments at h
  unfold ArgumentsAndOptions.getSingleArgument
  cases hf : find r.arguments name <;> simp_all

namespace MakedictExecutor

/-- `makedict` returns 0 exactly when its parser accepts the command line. -/
theorem run_exitCode_eq_zero_iff_isValid (argv : List String) :
    (run argv).exitCode = 0 ↔ (getArgumentsParser.parseArguments argv true).1.isValid = true := by
  simp only [run]
  split <;> simp_all

/-- A command line the parser rejects gets the usage on `stdout` and 1. -/
theorem run_of_isValid_eq_false {argv : List String}
    (h : (getArgumentsParser.parseArguments argv true).1.isValid = false) :
    (run argv).exitCode = 1 ∧ (run argv).stdout = printUsage := by
  simp [run, h]

/-- The parser of `makedict` accepts a command line exactly when its options are well formed and
two positional tokens follow the command name. -/
theorem isValid_parseArguments_iff_accepts (argv : List String) (printErrorMessage : Bool) :
    (getArgumentsParser.parseArguments argv printErrorMessage).1.isValid = true ↔
      ∃ command args src dest, argv = command :: args ∧
        positionals getArgumentsParser.optionSpecs args = some [src, dest] := by
  obtain ⟨hv, hle⟩ := getArgumentsParser_validateSpecs getArgumentsParser (by simp)
  cases argv with
  | nil => simp [parseArguments, parse, ArgumentsAndOptions.invalid]
  | cons command args =>
    have hmin : totalCount ArgumentSpec.minCount getArgumentsParser.argumentSpecs = 2 := rfl
    have hmax : totalCount ArgumentSpec.maxCount getArgumentsParser.argumentSpecs = 2 := rfl
    rw [isValid_parseArguments_iff hv hle, hmin, hmax]
    constructor
    · rintro ⟨pos, hpos, h₁, h₂⟩
      obtain ⟨src, dest, rfl⟩ : ∃ src dest, pos = [src, dest] :=
        match pos, (by omega : pos.length = 2) with | [src, dest], _ => ⟨src, dest, rfl⟩
      exact ⟨command, args, src, dest, rfl, hpos⟩
    · rintro ⟨_, _, src, dest, ⟨⟩, hpos⟩
      exact ⟨_, hpos, Nat.le_refl _, Nat.le_refl _⟩

/-- **What `makedict` returns.** It returns 0 exactly when its options are well formed and two
positional tokens follow the command name; otherwise it prints its usage to `stdout` and
returns 1. -/
theorem run_exitCode_eq_zero_iff (argv : List String) :
    ((run argv).exitCode = 0 ↔ ∃ command args src dest, argv = command :: args ∧
      positionals getArgumentsParser.optionSpecs args = some [src, dest]) ∧
    ((run argv).exitCode ≠ 0 → (run argv).exitCode = 1 ∧ (run argv).stdout = printUsage) := by
  have hvalid := run_exitCode_eq_zero_iff_isValid argv
  exact ⟨hvalid.trans (isValid_parseArguments_iff_accepts argv true),
    fun hn => run_of_isValid_eq_false (Bool.eq_false_iff.mpr (hn ∘ hvalid.mpr))⟩

example : (run ["makedict", "main.dict"]).exitCode = 1 := by decide

/-- **What a valid parse of `makedict` holds.** The two positional tokens, in order, are its
`src_dict` and its `dest_dict`. -/
theorem parseArguments_dicts {command : String} {args : List String} {printErrorMessage : Bool}
    (hvalid : (getArgumentsParser.parseArguments (command :: args) printErrorMessage).1.isValid = true) :
    let r := (getArgumentsParser.parseArguments (command :: args) printErrorMessage).1
    ∃ src dest, positionals getArgumentsParser.optionSpecs args = some [src, dest] ∧
      r.getSingleArgument "src_dict" = some src ∧ r.getSingleArgument "dest_dict" = some dest := by
  obtain ⟨hv, hle⟩ := getArgumentsParser_validateSpecs getArgumentsParser (by simp)
  obtain ⟨pos, hpos, hflat, hcount⟩ := parseArguments_stored hv hle hvalid
  dsimp only at hflat hcount ⊢
  generalize (getArgumentsParser.parseArguments (command :: args) printErrorMessage).1 = r at hflat hcount ⊢
  have hsingle : ∀ s ∈ getArgumentsParser.argumentSpecs, s.minCount = 1 ∧ s.maxCount = 1 := by decide
  have hone : ∀ s ∈ getArgumentsParser.argumentSpecs,
      ∃ a, (r.getVariableLengthArguments s.name).getD [] = [a] := fun s hs =>
    List.length_eq_one.mp (by have := hcount s hs; have := hsingle s hs; omega)
  obtain ⟨src, hsrc⟩ : ∃ a, (r.getVariableLengthArguments "src_dict").getD [] = [a] := hone _ (.head _)
  obtain ⟨dest, hdest⟩ : ∃ a, (r.getVariableLengthArguments "dest_dict").getD [] = [a] :=
    hone _ (.tail _ (.head _))
  have hpair : pos = [src, dest] := by
    rw [← hflat]
    simp only [getArgumentsParser, ArgumentSpec.singleArgument, List.flatMap_cons, List.flatMap_nil,
      hsrc, hdest, List.singleton_append, List.append_nil]
  exact ⟨src, dest, hpair ▸ hpos, ArgumentsAndOptions.getSingleArgument_of_getD hsrc,
    ArgumentsAndOptions.getSingleArgument_of_getD hdest⟩

/-- `makedict -o combined main.dict main.combined`: the two dictionaries come after the option's
value. -/
theorem parseArguments_dicts_combined :
    (getArgumentsParser.parseArguments ["makedict", "-o", "combined", "main.dict", "main.combined"]
      true).1.isValid = true ∧
    let r := (getArgumentsParser.parseArguments
      ["makedict", "-o", "combined", "main.dict", "main.combined"] true).1
    ∃ src dest, positionals getArgumentsParser.optionSpecs
        ["-o", "combined", "main.dict", "main.combined"] = some [src, dest] ∧
      r.getSingleArgument "src_dict" = some src ∧ r.getSingleArgument "dest_dict" = some dest :=
  ⟨by decide, parseArguments_dicts (by decide)⟩

end MakedictExecutor

end DictToolkit
