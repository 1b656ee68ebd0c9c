import ClassWeave.CommandLine.Plan
/-!
# Directories

A working directory that holds files only, and what an invocation does there.
-/

namespace ClassWeave

structure Directory where
  files : List (String × String)
deriving DecidableEq, Repr

inductive Destination where
  | directory
  | file (name : String)
  /-- A file of it, as if it were a directory. -/
  | asDirectory (name : String)
  | inside (name : String)
  | above
  /-- The device that holds nothing and takes everything. -/
  | sink
  | outside
deriving DecidableEq, Repr

/-- Where a path leads; empty parts and single dots lead nowhere else. -/
def Destination.ofPath (path : String) : Destination :=
  let parts := Text.splitWhere (· == '/') path.toList
  let steps := parts.filter fun part => !part.isEmpty && part != ['.']
  let below := steps.dropWhile (· == ['.', '.'])
  let isPlain := parts.getLast? == steps.getLast?
  match below with
  | [] => .directory
  | step :: more =>
    if path.startsWith "/" then
      if below == ["dev".toList, "null".toList] && isPlain then .sink else .outside
    else if below.length < steps.length then
      if more.isEmpty && isPlain then .above else .outside
    else if !more.isEmpty then .inside (String.ofList step)
    else if isPlain then .file (String.ofList step)
    else .asDirectory (String.ofList step)

namespace Directory

def longestName : Nat := 255

def content? (directory : Directory) (name : String) : Option String := directory.files.lookup name

def noDirectory (directory : Directory) (name : String) : FileFault :=
  if longestName < name.utf8ByteSize then .nameTooLong
  else if (directory.content? name).isSome then .notDirectory
  else .missing

def read (directory : Directory) (path : String) : Except FileFault String :=
  match Destination.ofPath path with
  | .directory => .error .directory
  | .sink => .ok ""
  | .file name =>
    if longestName < name.utf8ByteSize then .error .nameTooLong
    else match directory.content? name with
      | some content => .ok content
      | none => .error .missing
  | .asDirectory name | .inside name => .error (directory.noDirectory name)
  | .above | .outside => .error .missing

def put (files : List (String × String)) (name content : String) : List (String × String) :=
  match files with
  | [] => [(name, content)]
  | (other, old) :: rest =>
    if other = name then (name, content) :: rest else (other, old) :: put rest name content

/-- Writes a file. One above the working directory is not seen from there. -/
def write (directory : Directory) (path content : String) : Except FileFault Directory :=
  match Destination.ofPath path with
  | .directory => .error .directory
  | .above | .sink => .ok directory
  | .file name =>
    if longestName < name.utf8ByteSize then .error .nameTooLong
    else .ok ⟨put directory.files name content⟩
  | .asDirectory name =>
    if (directory.content? name).isSome then .error .notDirectory else .error .directory
  | .inside name => .error (directory.noDirectory name)
  | .outside => .error .missing

end Directory

structure Report where
  status : Nat
  output : Text
  notes : String
  directory : Directory

namespace Report

def perform : List Action → Bool → Report → Report
  | [], succeeds, report => { report with status := if succeeds then 0 else 1 }
  | action :: rest, succeeds, report =>
    match action with
    | .print content => perform rest succeeds { report with output := report.output ++ content }
    | .note message => perform rest succeeds { report with notes := report.notes ++ message }
    | .write file content =>
      match report.directory.write file (String.ofList content) with
      | .ok directory => perform rest succeeds { report with directory }
      | .error fault =>
        { report with status := 1, notes := report.notes ++ s!"Error: {fault.message}\n" }

def ofArguments (arguments : List String) (directory : Directory) : Report :=
  match Invocation.ofArguments arguments with
  | none => ⟨2, [], Invocation.usage, directory⟩
  | some invocation =>
    let plan := invocation.plan (directory.read invocation.input)
    perform plan.actions plan.succeeds ⟨0, [], "", directory⟩

end Report
end ClassWeave
