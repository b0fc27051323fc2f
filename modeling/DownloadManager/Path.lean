import Mathlib.Data.String.Basic

/-!
# Paths

The destination of a download and the files kept next to it are named by paths.
A path is its directory components and its file name; a path that ends in `..`,
a root or the empty path has no file name. A disk is kept by path, so it is that of
a run in which every file is named in one way: links and other spellings of a path
(`./a` for `a`) are not modelled.
-/

namespace DownloadManager

/-- `PathBuf`. -/
@[ext]
structure PathBuf where
  /-- The components above the file name. -/
  dirs : List String
  /-- `Path::file_name`. -/
  fileName : Option String
  deriving DecidableEq, Repr

namespace PathBuf

/-- The empty path. -/
def empty : PathBuf := ⟨[], none⟩

/-- `Path::with_added_extension`: a path without a file name is returned as it is. -/
def withAddedExtension (path : PathBuf) (extension : String) : PathBuf :=
  { path with fileName := path.fileName.map fun name => name ++ "." ++ extension }

/-- A path from its components: the last one is the file name, unless it is `..`. -/
def ofComponents (components : List String) : PathBuf :=
  match components.getLast? with
  | none | some ".." | some "/" => ⟨components, none⟩
  | some name => ⟨components.dropLast, some name⟩

/-- `Path::parent`: nothing for the empty path and for a root. -/
def parent (path : PathBuf) : Option PathBuf :=
  match path.fileName with
  | some _ => some (ofComponents path.dirs)
  | none => if path.dirs = [] ∨ path.dirs = ["/"] then none else some (ofComponents path.dirs.dropLast)

/-- A path that can be a file: what has no file name is a directory. -/
def IsFile (path : PathBuf) : Prop := path.fileName.isSome

instance (path : PathBuf) : Decidable path.IsFile := inferInstanceAs (Decidable (_ = true))

/-- The length of the file name. -/
def nameLength (path : PathBuf) : ℕ := (path.fileName.map String.length).getD 0

theorem isFile_withAddedExtension {path : PathBuf} {extension : String} :
    (path.withAddedExtension extension).IsFile ↔ path.IsFile := by
  simp [IsFile, withAddedExtension]

/-- What is no file is named as it is. -/
theorem withAddedExtension_of_not_isFile {path : PathBuf} (h : ¬path.IsFile) (extension : String) :
    path.withAddedExtension extension = path := by
  obtain ⟨dirs, name⟩ := path
  cases name with
  | none => rfl
  | some name => exact absurd rfl h

/-- An extension makes a file name longer. -/
theorem nameLength_lt_withAddedExtension {path : PathBuf} (h : path.IsFile) (extension : String) :
    path.nameLength < (path.withAddedExtension extension).nameLength := by
  obtain ⟨dirs, name⟩ := path
  cases name with
  | none => cases h
  | some name =>
    simp only [nameLength, withAddedExtension, Option.map_some, Option.getD_some, String.length_append]
    have : ".".length = 1 := rfl
    omega

/-- `Path::display`: the components, with a `/` between two, but for one after a root. -/
def display (path : PathBuf) : String :=
  match path.dirs ++ path.fileName.toList with
  | "/" :: components => "/" ++ "/".intercalate components
  | components => "/".intercalate components

example : display ⟨["/", "tmp"], some "y"⟩ = "/tmp/y" := by decide

end PathBuf

end DownloadManager
