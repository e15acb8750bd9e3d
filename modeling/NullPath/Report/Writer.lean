import NullPath.Report.Basic
import NullPath.Report.Document
import NullPath.Text.Columns
import NullPath.Text.Json

/-!
# The forms of a report

* `Report.text`: one line for each finding and problem, and a summary.
* `Report.json`: everything as a JSON value.
* `Report.document`: headings, a table and lists, for Markdown and HTML.
* `Report.render`: a report in a given form.
-/

namespace NullPath.Report

/-- The lines before they are aligned. -/
def rows (r : Report) : List String :=
  r.findings.map (fun f =>
      s!"{f.site.text}:\t{f.kind} in {f.function}\t[{f.witnessText}]\n") ++
    r.unknowns.map (fun u =>
      s!"{u.site.text}:\tundecided in {u.function}\t({u.reason.message})\n") ++
    r.skipped.map (fun (x, e) =>
      s!"{x.function.span.text}:\tskipped {x.function.name}\t({e.message})\n") ++
    r.incomplete.map fun name => s!"-\tincomplete {name}\t(unroll bound reached)\n"

/-- The report as lines in aligned columns, with a summary. -/
def text (r : Report) : String :=
  Columns.align (String.join r.rows) ++
    s!"{r.results.length} functions, {r.findings.length} findings, " ++
    s!"{r.unknowns.length} undecided, {r.skipped.length} skipped\n"

/-- A position as a JSON value.  What is not known is left out. -/
def spanJson (s : Span) : JsonValue :=
  .object (
    (if s.file = "" then [] else [("filename", .string s.file)]) ++
    (if s.line = 0 then [] else [("line", .number s.line)]) ++
    (if s.column = 0 then [] else [("column", .number s.column)]))

/-- A witness as a JSON value. -/
def witnessJson : Option Witness → JsonValue
  | none => .null
  | some w =>
    .array (w.map fun v => .object [("label", .string v.label), ("value", .string v.value)])

/-- A finding as a JSON value. -/
def findingJson (f : Finding) : JsonValue :=
  .object [("kind", .string f.kind), ("function", .string f.function), ("span", spanJson f.span),
    ("site", spanJson f.site), ("witness", witnessJson f.witness)]

/-- A problem as a JSON value. -/
def problemJson (function : String) (span : Span) (e : Error) : JsonValue :=
  .object [("function", .string function), ("span", spanJson span), ("error", .string e.message)]

/-- The statistics of a result as a JSON value. -/
def statsJson (r : Result) : JsonValue :=
  .object [("function", .string r.function.name), ("frames", .number r.stats.frames),
    ("nodes", .number r.stats.nodes), ("pruned", .number r.stats.pruned),
    ("havoced", .number r.stats.havoced), ("inlined", .number r.stats.inlined)]

/-- The report as a JSON value.  Without results there are no statistics. -/
def json (r : Report) : JsonValue :=
  .object [
    ("findings", .array (r.findings.map findingJson)),
    ("unknowns", .array (r.unknowns.map fun u => problemJson u.function u.site u.reason)),
    ("unsupported", .array (r.skipped.map fun (x, e) =>
      problemJson x.function.name x.function.span e)),
    ("incomplete", .array (r.incomplete.map .string)),
    ("stats", if r.results.isEmpty then .null else .array (r.results.map statsJson))]

/-- A section under a heading, if there is something to show. -/
def titled {α : Type} (title : String) (items : List α) (body : List α → List Section) :
    Document :=
  if items.isEmpty then [] else .heading 2 title :: body items

/-- The report as a document. -/
def document (r : Report) : Document :=
  [.heading 1 "Null dereference report",
    .paragraph s!"{r.results.length} functions analyzed, {r.findings.length} findings."] ++
  titled "Findings" r.findings (fun fs =>
    [.table ["Site", "Function", "Witness"]
      (fs.map fun f => [.code f.site.text, .code f.function, .code f.witnessText])]) ++
  titled "Undecided" r.unknowns (fun us =>
    [.bullets (us.map fun u =>
      [.code u.site.text, .text " in ", .code u.function, .text s!": {u.reason.message}"])]) ++
  titled "Skipped" r.skipped (fun xs =>
    [.bullets (xs.map fun (x, e) => [.code x.function.name, .text s!": {e.message}"])]) ++
  titled "Incomplete" r.incomplete fun names =>
    [.paragraph
        "The unroll bound was reached in these functions, so some paths were not explored.",
      .bullets (names.map fun name => [.code name])]

/-- The title of a page that is not given one. -/
def defaultTitle : String :=
  "nilsym"

/-- The report as an HTML page. -/
def page (r : Report) (title : String) : String :=
  r.document.page (if title = "" then defaultTitle else title)

/-- The report in a given form. -/
def render (r : Report) : Format → String
  | .text => r.text
  | .json => r.json.indented ++ "\n"
  | .markdown => r.document.markdown
  | .html => r.page ""

end NullPath.Report
