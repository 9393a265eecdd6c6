import BinaryLambda.CommandLine.Options

set_option autoImplicit false

/-!
# Command line: usage and help

The texts that describe the command line, laid out for eighty columns.
-/

namespace BinaryLambda.CommandLine

/-- How the program is called. -/
def usageText : String :=
  "usage: blcalc [-h] [-f FILE] [-m \x7bnormal,bruijn,binary\x7d] [-s] [-r] [--free]\n" ++
  "              [--max-steps MAX_STEPS] [-v]\n" ++
  "              [exprs ...]\n"

/-- The usage and a description of every argument. -/
def helpText : String :=
  usageText ++
  "\n" ++
  "Lambda calculus interpreter and BLC encoder\n" ++
  "\n" ++
  "positional arguments:\n" ++
  "  exprs                 terms to run (if empty, reads --file or stdin)\n" ++
  "\n" ++
  "options:\n" ++
  "  -h, --help            show this help message and exit\n" ++
  "  -f FILE, --file FILE  file with one term per line\n" ++
  "  -m \x7bnormal,bruijn,binary\x7d, --mode \x7bnormal,bruijn,binary\x7d\n" ++
  "                        normal: print the reduced term; bruijn: De Bruijn\n" ++
  "                        text; binary: BLC bits\n" ++
  "  -s, --surface         accept surface syntax (spaces, numerals, named\n" ++
  "                        combinators)\n" ++
  "  -r, --reduce          reduce before converting in bruijn/binary mode\n" ++
  "  --free                index free variables as implicit outer binders instead\n" ++
  "                        of rejecting them\n" ++
  "  --max-steps MAX_STEPS\n" ++
  "                        reduction step cap (default: 100)\n" ++
  "  -v, --verbose         print every reduction step\n"

/-- What is printed for a command line that cannot be read. -/
def usageError (e : UsageFault) : String :=
  usageText ++ "blcalc: error: " ++ e.message ++ "\n"

end BinaryLambda.CommandLine
