import Flowsmith.Files.Store
import Flowsmith.Xml.Reader
import Flowsmith.Xml.Writer

/-!
# Project files

A project file lists the files and references of a project as elements of an XML document. Items are
found at any depth and whatever their prefix. A project remembers whether it was edited since it was
loaded or saved.

* `Project.load`, `Project.save` : reading and writing;
* `Project.removeItems`, `removeReferences`, `removeImport` : removals, with how many there were;
* `Project.addCompile` : adds a source file;
* `Project.items` : the listed files;
* `Project.relativePath` : a path as project files write it.
-/

namespace Flowsmith

/-- A loaded project file. -/
structure Project where
  path : Bytes
  nodes : List Xml.Node
  /-- Whether the file begins with a byte order mark. -/
  marked : Bool := false
  /-- Whether the project was edited since it was loaded or saved. -/
  modified : Bool := false
  deriving Repr

namespace Project

def byteOrderMark : Bytes := [0xEF, 0xBB, 0xBF]

def ofBytes (path data : Bytes) : Except Fault Project :=
  let marked := byteOrderMark.isPrefixOf data
  let body := if marked then data.drop 3 else data
  match Xml.parse body with
  | .error f =>
    .error (f.wrap .projectEdit (("failed to parse project file " : Bytes) ++ path)
      [("file", .text path)])
  | .ok nodes =>
    if (Xml.root? nodes).isNone then
      .error (.new .projectEdit
        (("project file " : Bytes) ++ path ++ (" has no root element" : Bytes))
        [("file", .text path)])
    else .ok { path := path, nodes := nodes, marked := marked }

def toBytes (p : Project) : Bytes :=
  (if p.marked then byteOrderMark else []) ++ Xml.save p.nodes

/-- The listed values of the items with a tag, in document order level by level. -/
def items (p : Project) (tag : Bytes) : List Bytes :=
  (Xml.elementsNamed tag p.nodes).map (·.attrD "Include")

/-- Whether an element has a tag and a value of an attribute that is looked for. -/
def isTarget (tag key : Bytes) (wanted : Bytes → Bool) (e : Xml.Element) : Bool :=
  e.name.isMeantBy (.ofPath tag) && (e.attr? key).any wanted

/-- Removes the elements with a tag and a wanted value, and says how many there were. -/
def removeWhere (p : Project) (tag key : Bytes) (wanted : Bytes → Bool) : Nat × Project :=
  let count := ((Xml.breadthFirst p.nodes).filter (isTarget tag key wanted)).length
  (count,
   { p with
     nodes := Xml.pruneAll (isTarget tag key wanted) p.nodes
     modified := p.modified || 0 < count })

def removeItems (p : Project) (file : Bytes) : Nat × Project :=
  let compiled := p.removeWhere "Compile" "Include" (· == file)
  let content := compiled.2.removeWhere "Content" "Include" (· == file)
  (compiled.1 + content.1, content.2)

def removeImport (p : Project) (targets : Bytes) : Nat × Project :=
  p.removeWhere "Import" "Project" (· == targets)

def removeReferences (p : Project) (names : List Bytes) : Nat × Project :=
  p.removeWhere "Reference" "Include" names.contains

def plainElement (tag : Bytes) (attrs : List Xml.Attribute) (children : List Xml.Node) : Xml.Node :=
  .element ⟨[], tag⟩ attrs children

def compileItem (file : Bytes) : Xml.Node :=
  plainElement "Compile" [⟨⟨[], "Include"⟩, file⟩] []

/-- Adds a source file to the first group of items, or to a new one at the end of the root. A file
that is listed is not listed again. -/
def addCompile (p : Project) (file : Bytes) : Project :=
  if (p.items "Compile").contains file then p
  else
    let nodes := match Xml.appendTo? "ItemGroup" (compileItem file) p.nodes with
      | some nodes => nodes
      | none => Xml.appendToRoot (plainElement "ItemGroup" [] [compileItem file]) p.nodes
    { p with nodes := nodes, modified := true }

/-- A path below a root as project files write it, with backslashes. -/
def relativePath (root file : Bytes) : Except Fault Bytes :=
  match Path.relative? root file with
  | some p => .ok (p.replaceByte Path.slash "\\")
  | none =>
    .error (Fault.wrap
      (.plain (("Rel: can't make " : Bytes) ++ file ++ (" relative to " : Bytes) ++ root))
      .invalidInput (file ++ (" is not below " : Bytes) ++ root))

/-! ## Files -/

variable {σ : Type} [FileStore σ]

def findFile (dir : Bytes) : FileM σ Bytes := do
  let found ← tryCatch (Files.findFirst? dir "*.csproj") fun f =>
    throw (f.wrap .fileAccess
      (("failed to search " : Bytes) ++ dir ++ (" for a project file" : Bytes)))
  match found with
  | some path => return path
  | none =>
    throw (.new .notFound (("no project file found in " : Bytes) ++ dir) [("dir", .text dir)])

def load (path : Bytes) : FileM σ Project := do
  let data ← tryCatch (FileStore.read path) fun f =>
    throw (f.wrap .fileAccess (("failed to read project file " : Bytes) ++ path)
      [("file", .text path)])
  MonadExcept.ofExcept (ofBytes path data)

def save (p : Project) : FileM σ Project := do
  tryCatch (FileStore.write p.path p.toBytes) fun f =>
    throw (f.wrap .fileWrite (("failed to write project file " : Bytes) ++ p.path)
      [("file", .text p.path)])
  return { p with modified := false }

end Project

end Flowsmith
