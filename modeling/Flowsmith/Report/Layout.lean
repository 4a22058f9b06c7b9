import Flowsmith.Report.Model
import Flowsmith.Report.Style
import Flowsmith.Text.Utf8

/-!
# Reports for readers

A report as lines: the sections with their entries and warnings, and a summary at the end. The same
layout serves for plain text and for terminals; they differ in how single pieces are set.

* `Report.Dress` : how pieces are set;
* `Report.plainDress`, `Report.styledDress` : the two ways;
* `Report.layout` : the lines.
-/

namespace Flowsmith.Report

/-- How the pieces of a report are set. -/
structure Dress where
  /-- A text that plays the part with a name. -/
  piece : Bytes → Bytes → Bytes
  action : Action → Bytes
  summary : Summary → Bytes

/-! ## Plain text -/

/-- A text with spaces after it, up to a number of characters. -/
def padTo (width : Nat) (s : Bytes) : Bytes := s ++ Bytes.spaces (width - Utf8.count s)

def summaryLine (s : Summary) : Bytes :=
  ("summary: " : Bytes) ++ Bytes.natural s.generated ++ (" generated, " : Bytes)
    ++ Bytes.natural s.edited ++ (" rewritten, " : Bytes)
    ++ Bytes.natural s.removed ++ (" removed, " : Bytes)
    ++ Bytes.natural s.projectEdits ++ (" project edits, " : Bytes)
    ++ Bytes.natural s.warnings ++ (" warnings" : Bytes)

/-- Pieces as they are, actions in a column of nine. -/
def plainDress : Dress where
  piece _ text := text
  action a := padTo 9 a.name
  summary := summaryLine

/-! ## Terminals -/

def tableRow (widths : List Nat) (cells : List Bytes) : Bytes :=
  ("| " : Bytes) ++ Bytes.joinWith " | " (List.zipWith padTo widths cells) ++ (" |" : Bytes)

def boxLine (left right : String) (width : Nat) : Bytes :=
  Bytes.ofString left ++ (List.replicate width (Bytes.ofString "─")).flatten
    ++ Bytes.ofString right

def boxedTable (heading row : List Bytes) : Bytes :=
  let widths := List.zipWith (fun h c => max (Utf8.count h) (Utf8.count c)) heading row
  let width := widths.foldl (· + ·) 0 + 3 * (widths.length - 1) + 2
  Bytes.joinWith [Bytes.newline]
    [boxLine "┌" "┐" width, tableRow widths heading, tableRow widths row, boxLine "└" "┘" width]

def summaryTable (s : Summary) : Bytes :=
  boxedTable ["generated", "rewritten", "removed", "project edits", "warnings"]
    ([s.generated, s.edited, s.removed, s.projectEdits, s.warnings].map Bytes.natural)

def styledDress (styles : Stylesheet) : Dress where
  piece := styles.render
  action a := styles.render a.name a.name
  summary := summaryTable

/-! ## Layout -/

/-- The line of an entry, and a line for each of its warnings. -/
def entryLines (d : Dress) (e : Entry) : Bytes :=
  ("\n  " : Bytes) ++ d.action e.action ++ (" " : Bytes) ++ d.piece "Path" e.path
    ++ (if e.source.isEmpty then []
        else (" " : Bytes) ++ d.piece "Detail" (("from " : Bytes) ++ e.source))
    ++ (if e.detail.isEmpty then [] else (" " : Bytes) ++ d.piece "Detail" e.detail)
    ++ e.warnings.flatMap fun w =>
        ("\n    " : Bytes) ++ d.piece "Warning" (("warning: " : Bytes) ++ w)

def sectionLines (d : Dress) (s : Section) : Bytes :=
  ("\n" : Bytes) ++ d.piece "Header" s.name ++ (" " : Bytes) ++ d.piece "Root" s.root
    ++ (if s.entries.isEmpty then ("\n  " : Bytes) ++ d.piece "Detail" "nothing to migrate"
        else s.entries.flatMap (entryLines d))
    ++ ("\n" : Bytes)

def layout (d : Dress) (r : Report) : Bytes :=
  (if r.dryRun then d.piece "DryRun" "dry run: no file was changed" ++ ("\n" : Bytes) else [])
    ++ r.sections.flatMap (sectionLines d)
    ++ ("\n" : Bytes) ++ d.summary r.summary ++ ("\n" : Bytes)

end Flowsmith.Report
