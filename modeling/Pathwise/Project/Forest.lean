import Pathwise.Language.Program
import Pathwise.Program.Collect
import Pathwise.Program.Plain
import Pathwise.Project.Quotation
import Pathwise.Session
import Pathwise.Workspace

/-!
# The syntax forest of a program

A program starts with a main file and includes others: files of the user, and domains, which are
files that list further files.  The forest holds the syntax tree of the main file and of every file
that was included.  All its files count as one program: their definitions are gathered in the order
of the files.
-/

namespace Pathwise

/-- Syntax trees by the names of their files. -/
abbrev Forest := OrderedMap String Tree

namespace Forest

def log (w : Workspace) (text : String) : Run Unit :=
  Run.append w.logFile text

def parseFile (path : String) : Run Tree := do
  match Language.program.parse (← Run.read path) with
  | .ok t => pure t
  | .error e => throw (.refusedText e)

def transform (path : String) (f : String → Except Fault String) : Run Unit := do
  let text ← Run.read path
  Run.create path (← f text)

/-- Parses a domain file, whose quotation marks are replaced for the time of parsing. -/
def parseDomain (path : String) : Run Tree := do
  transform path Quotation.hide
  let t ← parseFile path
  transform path Quotation.restore
  pure t

/-- Names put behind each other, each behind two slashes. -/
def joined (names : List String) : String :=
  String.join (names.map ("//" ++ ·))

def names (t : Tree) : Except ShapeError (List String) := do
  (← t.children?).mapM Tree.text?

/-- The domain that describes packet parsers and holds no program. -/
def parserDomain : String := "parser"

/-- Adds the files that a domain lists under a rule; they lie in the directory `dir`. -/
def addListed (rule dir : String) (forest : Forest) (domain : Tree) : Run Forest := do
  let includes ← (← domain.child? 0).children?
  includes.foldlM (fun forest t => do
    if (← t.rule?) = rule then
      let name ← t.textAt? [0]
      if name = parserDomain then pure forest
      else pure (forest.insert name (← parseFile (dir ++ "//" ++ name ++ ".pne")))
    else pure forest) forest

/-- A path without its last two characters. -/
def shortened (path : String) : String :=
  String.ofList (path.toList.dropLast.dropLast)

def addInclude (w : Workspace) (forest : Forest) (t : Tree) : Run Forest := do
  let rule ← t.rule?
  if rule = "include_user_file" then
    let name := joined (← names t)
    pure (forest.insert name (← parseFile (w.project ++ name ++ ".pne")))
  else if rule = "include_user_domain" then
    let parts ← names t
    let dir := shortened w.project ++ joined parts.dropLast
    let domain ← parseDomain (dir ++ "//" ++ parts.getLastD "" ++ ".domain")
    addListed "include_user_file" dir forest domain
  else if rule = "include_sys_domain" then
    let dir := w.project ++ "//include"
    let domain ← parseDomain (dir ++ "//" ++ (← names t).getLastD "" ++ ".domain")
    addListed "include_sys_file" dir forest domain
  else pure forest

/-- The forest of a program whose main file is among the intermediate results. -/
def grow (w : Workspace) (mainFile : String) : Run Forest := do
  Report.say "parser_tree..."
  log w "parser_tree...\n"
  let main ← parseFile (w.componentFile ("main//" ++ mainFile))
  let forest := OrderedMap.empty.insert "main" main
  (← main.children?).foldlM (fun forest part => do
    if (← part.rule?) = "include" then (← part.children?).foldlM (addInclude w) forest
    else pure forest) forest

def program (w : Workspace) (f : Forest) : Run Program := do
  Report.say "collect..."
  log w "collect...\n"
  let p ← Program.gather f.values
  pure (if w.plain then p.plain else p)

end Forest

end Pathwise
