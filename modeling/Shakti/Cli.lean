import Shakti.Policy.Load

/-!
# Shakti.Cli

Command-line parsing (`cli.cyr`).
-/

namespace Shakti

open Effects

/-- `CliArgs`. -/
structure CliArgs where
  target : CStr
  policy : CStr
  invalidate : Bool
  list : Bool
  check : Bool
  help : Bool
  version : Bool
  argv : List CStr
  deriving DecidableEq

/-- `_cli_new`. -/
def cliNew : CliArgs where
  target := cstr "root"
  policy := defaultPolicyPath
  invalidate := false
  list := false
  check := false
  help := false
  version := false
  argv := []

/-- The loop of `_parse_cli_from`, on the words still to be read. -/
def parseCliLoop (cli : CliArgs) : List CStr → Sys (Option CliArgs)
  | [] => pure (some cli)
  | a :: rest =>
      if a = cstr "-u" ∨ a = cstr "--user" then
        match rest with
        | [] => pure none
        | u :: rest => parseCliLoop { cli with target := u } rest
      else if a = cstr "-p" ∨ a = cstr "--policy" then
        match rest with
        | [] => pure none
        | p :: rest => parseCliLoop { cli with policy := p } rest
      else if a = cstr "-k" ∨ a = cstr "--invalidate" then
        parseCliLoop { cli with invalidate := true } rest
      else if a = cstr "-l" ∨ a = cstr "--list" then
        parseCliLoop { cli with list := true } rest
      else if a = cstr "-c" ∨ a = cstr "--check" then
        parseCliLoop { cli with check := true } rest
      else if a = cstr "-h" ∨ a = cstr "--help" then
        parseCliLoop { cli with help := true } rest
      else if a = cstr "-V" ∨ a = cstr "--version" then
        parseCliLoop { cli with version := true } rest
      -- `--`: everything after it is the command.
      else if a = cstr "--" then pure (some { cli with argv := cli.argv ++ rest })
      else if a.load8 0 = 45 then do
        fileWrite 2 (utf8 "shakti: unknown option: ")
        fileWrite 2 a.bytes
        fileWrite 2 (utf8 "\n")
        pure none
      -- The first positional word starts the command.
      else pure (some { cli with argv := cli.argv ++ a :: rest })

/-- `_parse_cli_from`; the first word is the program's name. -/
def parseCliFrom (args : List CStr) : Sys (Option CliArgs) := parseCliLoop cliNew (args.drop 1)

end Shakti
