import Mathlib
import Uncomment.Standard
import Uncomment.Proofs.Runs

/-! The files that the rules of a directory are read from: the ignore files, and what tells where the
version control data are. -/
namespace Uncomment

namespace WorkingTree
variable {d d' : Disk} {directory : Path}

theorem dataOf_of_read {content : Bytes}
    (h : d.read (directory.join (Path.ofText ".git")) = .ok content) :
    dataOf d directory = match treeAt (directory.join (Path.ofText ".git")) content with
      | .ok (some tree) => sharedOf d tree
      | .ok none => .ok none
      | .error fault => .error fault := by
  obtain ⟨loc, mode, hresolve, hnode⟩ := Disk.read_eq_ok.1 h
  rw [dataOf, Disk.stat_eq_ok.2 ⟨loc, hresolve, hnode⟩]
  dsimp only
  cases treeAt (directory.join (Path.ofText ".git")) content with
  | error fault => rfl
  | ok tree => cases tree <;> rfl

theorem dataOf_of_unread {fault : IoFault}
    (h : d.read (directory.join (Path.ofText ".git")) = .error fault) :
    dataOf d directory = .ok (some (directory.join (Path.ofText ".git"))) := by
  rw [dataOf]
  cases hstat : d.stat (directory.join (Path.ofText ".git")) with
  | error fault => rfl
  | ok node =>
    cases node with
    | file content mode => simp [Disk.read, hstat] at h
    | directory => rfl
    | link target => rfl

/-- The file that names the shared directory, when the directory is one of a linked tree. -/
def commonFile? (d : Disk) (directory : Path) : Option Path :=
  match d.read (directory.join (Path.ofText ".git")) with
  | .ok content =>
    match treeAt (directory.join (Path.ofText ".git")) content with
    | .ok tree => tree.map commonFile
    | .error _ => none
  | .error _ => none

theorem dataOf_congr (h : d'.read (directory.join (Path.ofText ".git")) =
      d.read (directory.join (Path.ofText ".git")))
    (hcommon : ∀ file ∈ commonFile? d directory, d'.read file = d.read file) :
    dataOf d' directory = dataOf d directory := by
  cases hread : d.read (directory.join (Path.ofText ".git")) with
  | error fault => rw [dataOf_of_unread hread, dataOf_of_unread (h.trans hread)]
  | ok content =>
    rw [dataOf_of_read hread, dataOf_of_read (h.trans hread)]
    cases htree : treeAt (directory.join (Path.ofText ".git")) content with
    | error fault => rfl
    | ok tree =>
      cases tree with
      | none => rfl
      | some tree =>
        have hsame := hcommon (commonFile tree) (by simp [commonFile?, hread, htree])
        simp only [sharedOf, hsame]

end WorkingTree

theorem IgnoreFile.read_congr {d d' : Disk} (houtline : d'.outline = d.outline) {file : Path}
    (h : d'.read file = d.read file) : read d' file = read d file := by
  have hexists : d'.pathExists file = d.pathExists file := by
    rw [← Disk.pathExists_outline, houtline, Disk.pathExists_outline]
  rw [read, read, h, hexists]

namespace DirectoryRules

/-- The files that the rules of a directory are read from. -/
def sources (d : Disk) (directory : Path) : List Path :=
  directory.join (Path.ofText ".git") :: (WorkingTree.commonFile? d directory).toList ++
    RuleSource.all.filterMap fun source => (source.file d directory).toOption.join

theorem read_congr {d d' : Disk} (houtline : d'.outline = d.outline) {directory : Path}
    (h : ∀ file ∈ sources d directory, d'.read file = d.read file) (gitIgnore : Bool) :
    read d' gitIgnore directory = read d gitIgnore directory := by
  have hdata : WorkingTree.dataOf d' directory = WorkingTree.dataOf d directory :=
    WorkingTree.dataOf_congr (h _ (by simp [sources])) fun file hfile =>
      h file (by simp [sources, Option.mem_def.1 hfile])
  have hfile : ∀ source : RuleSource, source.file d' directory = source.file d directory := by
    intro source
    cases source with
    | gitExclude => exact congrArg (Except.map _) hdata
    | own => rfl
    | general => rfl
    | git => rfl
  have hsource : ∀ source : RuleSource, ofSource d' directory source = ofSource d directory source := by
    intro source
    rw [ofSource, ofSource, hfile]
    cases hplace : source.file d directory with
    | error fault => rfl
    | ok file =>
      cases file with
      | none => rfl
      | some file =>
        have hmem : file ∈ sources d directory := by
          refine List.mem_append_right _ (List.mem_filterMap.2 ⟨source, ?_, by rw [hplace]; rfl⟩)
          cases source <;> decide
        simp only [ofFile, IgnoreFile.read_congr houtline (h file hmem)]
  simp only [read, hsource]

end DirectoryRules

theorem readFrom_sources (d : Disk) : IgnoreRules.ReadFrom d (DirectoryRules.sources d) :=
  fun _ houtline _ h options around =>
    congrArg (RuleStack.enter around) (DirectoryRules.read_congr houtline h options.gitIgnore)

end Uncomment
