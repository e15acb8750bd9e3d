/-!
# Documents

A document is a list of headings, paragraphs, lists and tables, whose text may contain pieces of
code.  It is written as Markdown or as HTML.

* `Document`: documents.
* `Document.markdown`: the Markdown source.
* `Document.html`: the body of an HTML page.
-/

namespace NullPath

/-- A piece of running text. -/
inductive Inline
  | text (content : String)
  | code (content : String)
  deriving DecidableEq, Repr

/-- A part of a document. -/
inductive Section
  | heading (level : Nat) (content : String)
  | paragraph (content : String)
  | bullets (items : List (List Inline))
  | table (head : List String) (rows : List (List Inline))
  deriving DecidableEq, Repr

/-- A document is a sequence of sections. -/
abbrev Document := List Section

namespace Inline

/-- A piece of text in Markdown. -/
def markdown : Inline → String
  | .text s => s
  | .code s => "`" ++ s ++ "`"

/-- The characters that mean something in HTML, escaped. -/
def escapeHtml (s : String) : String :=
  String.join (s.toList.map fun c =>
    if c = '&' then "&amp;"
    else if c = '<' then "&lt;"
    else if c = '>' then "&gt;"
    else if c = '"' then "&quot;"
    else c.toString)

/-- The content of a piece of code as it is shown: if blanks surround it, one is taken away at
either end. -/
def codeContent (s : String) : String :=
  match s.toList with
  | ' ' :: rest =>
    if rest.getLast? = some ' ' && !rest.all (· == ' ') then String.ofList rest.dropLast else s
  | _ => s

/-- A piece of text in HTML.  Code without content does not become code. -/
def html : Inline → String
  | .text s => escapeHtml s
  | .code s => if s = "" then "``" else "<code>" ++ escapeHtml (codeContent s) ++ "</code>"

/-- Running text in Markdown. -/
def markdownAll (xs : List Inline) : String :=
  String.join (xs.map markdown)

/-- Running text in HTML, without blanks at its end. -/
def htmlAll (xs : List Inline) : String :=
  (String.join (xs.map html)).trimAsciiEnd.toString

end Inline

namespace Section

/-- A section in Markdown. -/
def markdown : Section → String
  | .heading level content => "".pushn '#' level ++ " " ++ content ++ "\n\n"
  | .paragraph content => content ++ "\n\n"
  | .bullets items =>
    String.join (items.map fun x => "- " ++ Inline.markdownAll x ++ "\n") ++ "\n"
  | .table head rows =>
    "| " ++ " | ".intercalate head ++ " |\n" ++
      "|" ++ String.join (head.map fun _ => "---|") ++ "\n" ++
      String.join (rows.map fun row =>
        "| " ++ " | ".intercalate (row.map Inline.markdown) ++ " |\n") ++ "\n"

/-- The lines of a table row. -/
def htmlRow (tag : String) (cells : List String) : String :=
  "<tr>\n" ++ String.join (cells.map fun c => s!"<{tag}>{c}</{tag}>\n") ++ "</tr>\n"

/-- A section in HTML. -/
def html : Section → String
  | .heading level content => s!"<h{level}>{Inline.escapeHtml content}</h{level}>\n"
  | .paragraph content => s!"<p>{Inline.escapeHtml content}</p>\n"
  | .bullets items =>
    "<ul>\n" ++ String.join (items.map fun x => s!"<li>{Inline.htmlAll x}</li>\n") ++ "</ul>\n"
  | .table head rows =>
    "<table>\n<thead>\n" ++ htmlRow "th" (head.map Inline.escapeHtml) ++ "</thead>\n<tbody>\n" ++
      String.join (rows.map fun row => htmlRow "td" (row.map Inline.html)) ++
      "</tbody>\n</table>\n"

end Section

namespace Document

/-- A document in Markdown. -/
def markdown (d : Document) : String :=
  String.join (d.map Section.markdown)

/-- A document as the body of an HTML page. -/
def html (d : Document) : String :=
  String.join (d.map Section.html)

/-- A document as an HTML page with a title. -/
def page (d : Document) (title : String) : String :=
  "<!DOCTYPE html>\n<html>\n<head>\n<meta charset=\"utf-8\">\n<title>" ++
    Inline.escapeHtml title ++ "</title>\n</head>\n<body>\n" ++ html d ++ "</body>\n</html>\n"

end Document

end NullPath
