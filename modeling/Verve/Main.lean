import Verve.Check.Infer

/-!
# The command line

`verve FILE [--max-depth N] [--dump-types]` checks a source file. A fault is reported on
standard error against the file's name without its directories, and the exit code is 1. On
success the listing of types (with `--dump-types`) and the type of the program are printed.
Options `-v` and `--verbose` are accepted and change nothing that is printed.
-/

namespace Verve
namespace Cli

/-- The options of a run. -/
structure Options where
  file : String
  maxDepth : Nat := 4096
  dumpTypes : Bool := false
  deriving Inhabited

/-- Reads the arguments after the program name, the file and the options in any order. -/
def parseArgs : List String → Option String → Nat → Bool → Except String Options
  | [], some f, n, d => .ok ⟨f, n, d⟩
  | [], none, _, _ => .error "error: the following required arguments were not provided:\n  <FILE>"
  | "--max-depth" :: v :: rest, f, _, d =>
    match v.toNat? with
    | some n => parseArgs rest f n d
    | none => .error ("error: invalid value '" ++ v ++ "' for '--max-depth <MAX_DEPTH>'")
  | "--dump-types" :: rest, f, n, _ => parseArgs rest f n true
  | "-v" :: rest, f, n, d => parseArgs rest f n d
  | "--verbose" :: rest, f, n, d => parseArgs rest f n d
  | a :: rest, none, n, d =>
    if a.startsWith "-" then .error ("error: unexpected argument '" ++ a ++ "' found")
    else parseArgs rest (some a) n d
  | a :: _, some _, _, _ => .error ("error: unexpected argument '" ++ a ++ "' found")

/-- The last part of a path. -/
def baseName (path : String) : String :=
  ((path.splitOn "/").filter (· ≠ "")).getLastD path

end Cli
end Verve

/-- Checks the file named on the command line. -/
def main (args : List String) : IO UInt32 := do
  match Verve.Cli.parseArgs args none 4096 false with
  | .error m =>
    IO.eprintln m
    pure 2
  | .ok o =>
    let source ← try IO.FS.readFile o.file catch e => do
      IO.eprintln ("Error: cannot read " ++ o.file ++ ": " ++ toString e)
      return 1
    match Verve.checkSource source o.maxDepth with
    | .error (_, e) =>
      IO.eprintln (e.report (Verve.Cli.baseName o.file) source)
      pure 1
    | .ok (t, tree) =>
      if o.dumpTypes then
        for l in tree.listing do
          IO.println l
      IO.println t.display
      pure 0
