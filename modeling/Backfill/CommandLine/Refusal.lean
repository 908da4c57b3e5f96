/-!
# Refusals

Why a command line names nothing to run. Some of them are what was asked for: help, or the version.
-/
namespace Backfill.CommandLine

/-- Why there is nothing to run. -/
inductive Refusal where
  | help
  | version
  /-- Nothing was given at all. -/
  | helpForNothing
  | unknownArgument (word : String)
  /-- Close to the name of a subcommand, or in the place of one. -/
  | unknownSubcommand (word : String)
  | missingSubcommand
  | missingArgument (name : String)
  /-- No value, or none of those there are. -/
  | invalidValue (name : String)
  /-- A value that cannot be read. -/
  | unreadableValue (name : String)
  /-- A value for an option that has none. -/
  | unneededValue (name : String)
  /-- An option given twice. -/
  | repeated (name : String)
  deriving DecidableEq, Repr

def Refusal.message : Refusal → String
  | help | helpForNothing =>
    "Usage: [OPTIONS] --chain CHAIN --rpc-url URL recent|historical [OPTIONS]"
  | version => "0.3.0"
  | unknownArgument word => "unexpected argument '" ++ word ++ "'"
  | unknownSubcommand word => "unrecognized subcommand '" ++ word ++ "'"
  | missingSubcommand => "a subcommand is needed"
  | missingArgument name => "--" ++ name ++ " is needed"
  | invalidValue name => "no valid value for --" ++ name
  | unreadableValue name => "the value of --" ++ name ++ " cannot be read"
  | unneededValue name => "--" ++ name ++ " takes no value"
  | repeated name => "--" ++ name ++ " is given more than once"

end Backfill.CommandLine
