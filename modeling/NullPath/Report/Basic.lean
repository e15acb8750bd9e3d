import NullPath.Analysis

/-!
# Reports

A report presents the results of an analysis.

* `Report`: the results.
* `Report.findings`: all findings in the order in which they are presented.
* `Report.unknowns`, `Report.skipped`, `Report.incomplete`: what else is presented.
* `Report.Format`: the forms of a report.
-/

namespace NullPath

/-- The results of an analysis. -/
structure Report where
  results : List Result

namespace Report

/-- Whether a finding may stand before another: by function, then by line. -/
def mayPrecede (a b : Finding) : Bool :=
  if a.function = b.function then a.site.line ≤ b.site.line else a.function < b.function

/-- All findings by function and line; those of one line keep the order of the results. -/
def findings (r : Report) : List Finding :=
  (r.results.flatMap Result.findings).mergeSort mayPrecede

/-- All dereferences about which nothing could be found out. -/
def unknowns (r : Report) : List Unknown :=
  r.results.flatMap Result.unknowns

/-- The results of functions whose analysis failed, each with what went wrong. -/
def skipped (r : Report) : List (Result × Error) :=
  r.results.filterMap fun x => x.error.map fun e => (x, e)

/-- The names of the functions in which some path was cut off. -/
def incomplete (r : Report) : List String :=
  (r.results.filter Result.incomplete).map fun x => x.function.name

/-- The form of a report. -/
inductive Format
  | text
  | json
  | markdown
  | html
  deriving DecidableEq, Repr

/-- The form with a name. -/
def Format.ofName (name : String) : Except Error Format :=
  match name with
  | "" | "text" => .ok .text
  | "json" => .ok .json
  | "markdown" | "md" => .ok .markdown
  | "html" => .ok .html
  | _ => .error (.ofText s!"unknown report format: {Text.quote name}")

end Report

namespace Finding

/-- The witness of a finding in one line. -/
def witnessText (f : Finding) : String :=
  (f.witness.getD []).text

end Finding

end NullPath
