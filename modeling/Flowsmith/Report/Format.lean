import Flowsmith.Document.Json
import Flowsmith.Document.Toml
import Flowsmith.Document.Yaml
import Flowsmith.Fault
import Flowsmith.Report.Layout
import Flowsmith.Text.Case

/-!
# Formats of reports

A report is written for readers, plainly or for a terminal, or for machines as a document.

* `Report.Format.parse`, `Report.Format.ofCode` : the format with a name or a number;
* `Report.document` : a report for machines;
* `Report.render` : a report in a format.
-/

namespace Flowsmith.Report

inductive Format where
  /-- What fits the output; plain text, as no output is a terminal. -/
  | auto
  | term
  | text
  | json
  | yaml
  | toml
  deriving DecidableEq, Repr

namespace Format

def all : List Format := [auto, term, text, json, yaml, toml]

def code (f : Format) : Nat := all.idxOf f

def name : Format → Bytes
  | auto => "auto"
  | term => "term"
  | text => "text"
  | json => "json"
  | yaml => "yaml"
  | toml => "toml"

def ofCode? (n : Int) : Option Format := if n < 0 then none else all[n.toNat]?

def nameOfCode (n : Int) : Bytes := ((ofCode? n).map name).getD "unknown"

def ofCode (n : Int) : Except Fault Format :=
  match ofCode? n with
  | some f => .ok f
  | none => .error (.plain (("unknown format: " : Bytes) ++ nameOfCode n))

def names : List (String × Format) :=
  [("auto", auto), ("", auto), ("term", term), ("terminal", term), ("text", text), ("plain", text),
   ("json", json), ("yaml", yaml), ("yml", yaml), ("toml", toml)]

/-- The format with a name, in letters of either case. -/
def parse (s : Bytes) : Except Fault Format :=
  match names.find? fun n => Bytes.ofString n.1 == Bytes.lower s with
  | some n => .ok n.2
  | none => .error (.plain (("unknown format: " : Bytes) ++ s))

def detected : Format := text

end Format

/-- An entry for machines; what is empty is left out. -/
def entryDocument (e : Entry) : Document :=
  let always : List (Bytes × Document) :=
    [("action", .text e.action.name), ("path", .text e.path)]
  .record
    (always
      ++ Document.fieldWhen (!e.source.isEmpty) "source" (.text e.source)
      ++ Document.fieldWhen (!e.detail.isEmpty) "detail" (.text e.detail)
      ++ Document.fieldWhen (!e.warnings.isEmpty) "warnings" (.list (e.warnings.map .text)))

def sectionDocument (s : Section) : Document :=
  .record
    [("name", .text s.name), ("root", .text s.root),
     ("entries", Document.listOrUnset (s.entries.map entryDocument))]

def summaryDocument (s : Summary) : Document :=
  .record
    [("generated", .number s.generated), ("rewritten", .number s.edited),
     ("removed", .number s.removed), ("project_edits", .number s.projectEdits),
     ("warnings", .number s.warnings)]

def document (r : Report) : Document :=
  .record
    [("command", .text r.command), ("dry_run", .flag r.dryRun),
     ("summary", summaryDocument r.summary),
     ("sections", .list (r.sections.map sectionDocument))]

def render (r : Report) : Format → Bytes
  | .auto => r.layout plainDress
  | .text => r.layout plainDress
  | .term => r.layout (styledDress Stylesheet.default)
  | .json => r.document.json
  | .yaml => r.document.yaml
  | .toml => r.document.toml

end Flowsmith.Report
