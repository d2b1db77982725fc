import CodeIndex.Ignore
import CodeIndex.ProjectKind
import CodeIndex.Session
import CodeIndex.Timestamp
import CodeIndex.Tree.View

/-!
# The main page of an index

The main page names the project, draws its directories and links to all pages that are there.
-/

namespace CodeIndex.Overview

def fileName : Text := "INDEX.md".toList

def pagesName : Text := "directories".toList

def treeDepth : Int := 4

def treeFiles : Int := 20

def pageNames (fs : FileSystem) (pages : Path) : Except Failure (List Text) := do
  if (← fs.isPresent pages) then
    match fs.list pages with
    | .ok names => return Text.sortedSet (names.filter (globMatches "*.md".toList))
    | .error _ => return []
  else return []

def link (name : Text) : Text :=
  "- [".toList ++ (Path.cutSuffix name).1 ++ "](".toList ++ pagesName ++ ['/'] ++ name ++ [')']

def topLines (name kind : Text) (stack : List Text) (now : Timestamp) (tree : Text) : List Text :=
  ["# Project Index: ".toList ++ name, [], "## Project Information".toList,
    "- **Type**: ".toList ++ kind,
    "- **Tech Stack**: ".toList ++ ProjectKind.stackText stack,
    "- **Generated**: ".toList ++ now.display, [], "## How to Use This Index".toList, [],
    "1. Start by reading this main index to understand the project structure".toList,
    "2. Navigate to specific directory indexes based on your task".toList,
    "3. Each directory index contains file summaries with exports/definitions".toList, [],
    "## Directory Structure".toList, [], "```".toList, tree, "```".toList, [],
    "## Directory Index Navigation".toList, []]

def text (name : Text) (project : ProjectKind) (now : Timestamp) (tree : Text) (pages : List Text) :
    Text :=
  Text.unlines (topLines name project.kind project.stack now tree ++ pages.map link ++ [[]])

def page (fs : FileSystem) (root indexDir : Path) (project : ProjectKind) (rules : IgnoreRules)
    (now : Timestamp) : Except Failure Text := do
  let tree ← Tree.ofPath fs (.full rules.ignores treeDepth true treeFiles) root
  let pages ← pageNames fs (indexDir.child pagesName)
  return text root.name project now (tree.draw true) pages

def write (root indexDir : Path) (project : ProjectKind) (rules : IgnoreRules) (now : Timestamp) :
    Action Unit := do
  let content ← Action.ask fun fs => page fs root indexDir project rules now
  Action.writeText (indexDir.child fileName) content

end CodeIndex.Overview
