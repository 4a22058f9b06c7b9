import Flowsmith.Files.Path

/-!
# Help topics

A topic is a text file, and its name is the name of the file without the extension. Topics on
options have names that begin with `option-`, and are also found under the name of the option.

* `Topics.ofFiles` : the topics of files;
* `Topics.find?` : the topic that a name means;
* `Topics.index` : the list of topics for readers.
-/

namespace Flowsmith

structure Topic where
  name : Bytes
  file : Bytes
  content : Bytes
  deriving DecidableEq, Repr

abbrev Topics := List Topic

namespace Topics

/-- The extensions of topic files when nothing else is said. -/
def usualExtensions : List Bytes := [".txt", ".md"]

def add (ts : Topics) (t : Topic) : Topics := ts.filter (·.name != t.name) ++ [t]

/-- The order in which files are met: by the names of directories and files, from the left. -/
def metBefore : List Bytes → List Bytes → Bool
  | [], _ => true
  | _ :: _, [] => false
  | a :: as, b :: bs => Bytes.lt a b || (a == b && metBefore as bs)

/-- The topics of files with certain extensions, the usual ones when there are none. The file that
is met last counts. -/
def ofFiles (extensions : List Bytes) (files : List (Bytes × Bytes)) : Topics :=
  let extensions := if extensions.isEmpty then usualExtensions else extensions
  let sorted := files.mergeSort fun a b =>
    metBefore (Bytes.splitOn Path.slash a.1) (Bytes.splitOn Path.slash b.1)
  sorted.foldl (fun ts (path, content) =>
    let extension := Path.extension path
    if extensions.contains extension then
      add ts ⟨Path.trimEnd (Path.base path) extension, path, content⟩
    else ts) []

def names (ts : Topics) : List Bytes := Bytes.sort (ts.map (·.name))

/-- What the names of topics on options begin with. -/
def optionStart : Bytes := "option-"

def without (start s : Bytes) : Bytes := (Bytes.dropStart? s start).getD s

/-- The topic that a name means, which may be written as an option. -/
def find? (ts : Topics) (name : Bytes) : Option Topic :=
  let bare := without "-" (without "--" name)
  match List.find? (fun t : Topic => t.name == bare) ts with
  | some t => some t
  | none => List.find? (fun t : Topic => t.name == optionStart ++ bare) ts

def block (title : Bytes) (lines : List Bytes) : Bytes :=
  if lines.isEmpty then []
  else ("\n" : Bytes) ++ title ++ ("\n" : Bytes)
    ++ lines.flatMap fun l => ("  " : Bytes) ++ l ++ ("\n" : Bytes)

/-- The list of topics for readers of a program's help. -/
def index (ts : Topics) (program : Bytes) : Bytes :=
  let isOption := fun n : Bytes => optionStart.isPrefixOf n
  if List.isEmpty ts then "No help topics available.\n"
  else
    ("Available help topics:\n" : Bytes)
      ++ block "General topics:" ((names ts).filter fun n => !isOption n)
      ++ block "Option topics:"
          (((names ts).filter isOption).map fun n => ("--" : Bytes) ++ without optionStart n)
      ++ ("\nUse '" : Bytes) ++ program
      ++ (" help <topic>' to read about a specific topic.\n" : Bytes)

end Topics

end Flowsmith
