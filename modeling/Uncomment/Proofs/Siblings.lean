import Mathlib
import Uncomment.Proofs.Independence
import Uncomment.Proofs.Selection

/-! A file as a target of its own and as an entry of its directory. The walk asks the ignore files one
after the other, the weightiest first; for a target the rules beside it are one list, of which the last
match decides. The library is taken to match rules as git does. -/
namespace Uncomment
open Ascii

/-! ## A name behind a directory -/

namespace Path

/-- Two spellings that agree in front of one relative path do so in front of every other. -/
theorem join_congr {p p' q q' : Path} (hq : q.isAbsolute = false) (hq' : q'.isAbsolute = false)
    (h : p.join q = p'.join q) : p.join q' = p'.join q' := by
  -- what stands in front of the relative path is the same on both sides
  have hfront : ∀ p : Path, ∃ front, ∀ r : Path, r.isAbsolute = false → p.join r = ⟨front ++ r.bytes⟩ := by
    intro p
    by_cases hp : (p.isEmpty || p.bytes.getLast? == some slash) = true
    · exact ⟨p.bytes, fun r hr => by simp only [join, hr, hp, if_true, Bool.false_eq_true, if_false]⟩
    · exact ⟨p.bytes ++ [slash], fun r hr => by simp [join, hr, hp]⟩
  obtain ⟨front, hp⟩ := hfront p
  obtain ⟨front', hp'⟩ := hfront p'
  rw [hp q hq, hp' q hq, mk.injEq] at h
  rw [hp q' hq', hp' q' hq', List.append_cancel_right h]

theorem parent?_here_join {name : Bytes} (h : IsName name) :
    (here.join ⟨name⟩).parent? = some here := by
  have hjoin : here.join ⟨name⟩ = ⟨[dot] ++ slash :: name⟩ :=
    join_of_ne_slash (by decide) (by decide) h.isPart
  have hlead : (here.join ⟨name⟩).lead = some .here := by
    rw [hjoin, lead_append (by simp)]
    rfl
  have hparts : (here.join ⟨name⟩).parts = [[], name] := by
    rw [hjoin, parts_append (by simp), h.split_eq]
    rfl
  have hkept : Bytes.dropEndWhile isFiller [[], name] = [[], name] := by
    simp [Bytes.dropEndWhile, h.not_isFiller]
  rw [parent?, hparts, hkept, hlead]
  rfl

/-- The directory of a path is its parent when it leads to the path again. -/
theorem parent?_of_directory_join {p : Path} {name : Bytes} (h : IsName name)
    (hp : p.directory.join ⟨name⟩ = p) : p.parent? = some p.directory := by
  cases hparent : p.parent?.filter (!·.isEmpty) with
  | none =>
    have hhere : p.directory = here := by rw [directory, hparent]; rfl
    rw [hhere] at hp ⊢
    rw [← hp, parent?_here_join h]
  | some q =>
    have hq : p.directory = q := by rw [directory, hparent]; rfl
    rw [hq]
    exact (Option.filter_eq_some_iff.1 hparent).1

theorem directory_not_isEmpty (p : Path) : p.directory.isEmpty = false := by
  cases hparent : p.parent?.filter (!·.isEmpty) with
  | none =>
    rw [directory, hparent]
    rfl
  | some q =>
    rw [directory, hparent]
    simpa using (Option.filter_eq_some_iff.1 hparent).2

/-- What a path is called from a directory does not depend on the spelling of the directory. -/
theorem relativeTo?_congr {base base' : Path} (h : base.components = base'.components) (p : Path) :
    relativeTo? base p = relativeTo? base' p := by
  simp only [relativeTo?, h]

end Path

theorem Exclusion.excludes_congr (e : Exclusion) {root root' : Path}
    (h : root.components = root'.components) (p : Path) : e.excludes p root = e.excludes p root' := by
  simp only [excludes, Path.relativeTo?_congr h]

/-! ## Rules as git reads them -/

/-- What the contents of ignore files say to git about the entries beside them. -/
structure GitRules where
  Rule : Type
  /-- The rules of a content. What is no rule is left out. -/
  rules : (content : Bytes) → List Rule
  accepts : Rule → (name : Bytes) → (isDirectory : Bool) → Bool
  /-- The rule takes an entry back in. -/
  allows : Rule → Bool

namespace GitRules

/-- The word of the last rule that matches. -/
def verdict? (g : GitRules) (rules : List g.Rule) (name : Bytes) (isDirectory : Bool) : Option Verdict :=
  (rules.reverse.find? (g.accepts · name isDirectory)).map fun r =>
    if g.allows r then .allowed else .ignored

/-- Of two lists behind each other the later one decides first. -/
theorem verdict?_append (g : GitRules) (rules later : List g.Rule) (name : Bytes) (isDirectory : Bool) :
    g.verdict? (rules ++ later) name isDirectory =
      (g.verdict? later name isDirectory).or (g.verdict? rules name isDirectory) := by
  simp only [verdict?, List.reverse_append, List.find?_append, Option.map_or]

/-- What the ignore file says, if it is there. -/
def ofFile (g : GitRules) (d : Disk) (file : Path) (name : Bytes) (isDirectory : Bool) : Option Verdict :=
  (d.read file).toOption.bind fun content => g.verdict? (g.rules content) name isDirectory

/-- What the two ignore files of a directory say. The program's own file prevails. -/
def ofDirectory (g : GitRules) (d : Disk) (gitIgnore : Bool) (directory : Path) (name : Bytes)
    (isDirectory : Bool) : Option Verdict :=
  (g.ofFile d (directory.join (Path.ofText IgnoreFile.ownName)) name isDirectory).or
    (if gitIgnore then g.ofFile d (directory.join (Path.ofText IgnoreFile.gitName)) name isDirectory
      else none)

/-- The rules of the two files in one list say what the files say one after the other. -/
theorem verdict?_files (g : GitRules) (d : Disk) (gitIgnore : Bool) (directory : Path) (name : Bytes)
    (isDirectory : Bool) :
    g.verdict? (((SiblingRules.files d directory gitIgnore).map Prod.snd).flatMap g.rules) name
        isDirectory = g.ofDirectory d gitIgnore directory name isDirectory := by
  have hnone : g.verdict? [] name isDirectory = none := rfl
  have hread : ∀ names : List String,
      ((names.filterMap fun text => (d.read (directory.join (Path.ofText text))).toOption.map
        (directory.join (Path.ofText text), ·)).map Prod.snd).flatMap g.rules =
          names.flatMap fun text =>
            ((d.read (directory.join (Path.ofText text))).toOption.map g.rules).getD [] := by
    intro names
    induction names with
    | nil => rfl
    | cons text names ih =>
      rw [List.filterMap_cons, List.flatMap_cons, ← ih]
      cases (d.read (directory.join (Path.ofText text))).toOption <;> rfl
  have hfile : ∀ text : String, g.verdict?
      (((d.read (directory.join (Path.ofText text))).toOption.map g.rules).getD []) name isDirectory =
        g.ofFile d (directory.join (Path.ofText text)) name isDirectory := by
    intro text
    rw [ofFile]
    cases (d.read (directory.join (Path.ofText text))).toOption <;> rfl
  rw [SiblingRules.files, hread, ofDirectory]
  cases gitIgnore with
  | false => simp [SiblingRules.names, hfile]
  | true => simp [SiblingRules.names, verdict?_append, hfile]

end GitRules

/-- No ignore file plays a part in the directory, which is at `place`, but its own two. -/
structure Alone (d : Disk) (directory : Path) (place : Location) : Prop where
  general : d.isFile (directory.join (Path.ofText ".ignore")) = false
  exclude : d.isFile (directory.join (Path.ofText ".git/info/exclude")) = false
  above : ∀ loc, loc <+: place → loc ≠ place →
    ∀ name ∈ [IgnoreFile.ownName, ".ignore", IgnoreFile.gitName, ".git/info/exclude"],
      d.isFile ((Disk.absolute loc).join (Path.ofText name)) = false

namespace IgnoreRules
variable [IgnoreRules]

/-- Where a directory is alone and nothing holds everywhere, a walk that shows hidden entries passes
over those that the two files of the directory rule out. -/
def WalksAsGit (g : GitRules) (d : Disk) (gitIgnore : Bool) (directory : Path) (place : Location) : Prop :=
  Alone d directory place → ∀ name, IsName name → ∀ isDirectory : Bool,
    rejects ⟨true, gitIgnore⟩
        (enter d ⟨true, gitIgnore⟩ (above d ⟨true, gitIgnore⟩ directory) directory)
        (directory.join ⟨name⟩) isDirectory =
      (g.ofDirectory d gitIgnore directory name isDirectory == some .ignored)

/-- Contents that can be used together are one list of rules for the entries of the directory. -/
def BuildsAsGit (g : GitRules) (directory : Path) : Prop :=
  ∀ contents verdict?, build directory contents = .ok verdict? → ∀ name, IsName name →
    ∀ isDirectory : Bool, verdict? (directory.join ⟨name⟩) isDirectory =
      g.verdict? (contents.flatMap g.rules) name isDirectory

end IgnoreRules

/-! ## The two ends of a file -/

/-- A supported file of this name in the directory, which is at `place`. -/
structure Holds (d : Disk) (directory : Path) (place : Location) (name : Bytes) : Prop where
  resolves : d.resolve true directory = .ok place
  isDirectory : d.node? place = some .directory
  regular : ∃ content mode, d.node? (place ++ [name]) = some (.file content mode)
  supported : (directory.join ⟨name⟩).language?.isSome = true

theorem Disk.short_of_resolve {d : Disk} {follow : Bool} {p : Path} {loc : Location}
    (h : d.resolve follow p = .ok loc) : p.bytes.length < pathLimit := by
  have hnul : nul ∉ p.bytes := (reach_eq_ok.1 (reach_of_resolve h)).1
  by_contra hlong
  simp [resolve, not_lt.1 hlong, hnul] at h

theorem FileResult.not_isSkipped {r : FileResult} (h : r.isError ∨ r.isSuccess) :
    r.isSkipped = false := by
  cases houtcome : r.outcome with
  | skipped reason => simp [isError, errorKind?, isSuccess, houtcome] at h
  | success => simp [isSkipped, houtcome]
  | error kind message => simp [isSkipped, houtcome]

section Ends
variable {d : Disk} {directory : Path} {place : Location} {name : Bytes}

/-- The walk of a directory reports the file unless a pattern or a rule keeps it out. -/
theorem Holds.mem_walk [Globs] [IgnoreRules] (wf : d.WellFormed) (h : Holds d directory place name)
    (hinput : Path.same directory Walk.standardInput = false) {options : WalkOptions}
    {exclusion : Exclusion} (hexclude : Exclusion.ofPatterns options.exclude = .ok exclusion) :
    ∃ w, walk d { options with recursive := false } directory = .ok w ∧
      (directory.join ⟨name⟩ ∈ w.files ↔
        exclusion.excludes (directory.join ⟨name⟩) directory = false ∧
          IgnoreRules.rejects ⟨options.hidden, options.gitIgnore⟩
            (IgnoreRules.enter d ⟨options.hidden, options.gitIgnore⟩
              (IgnoreRules.above d ⟨options.hidden, options.gitIgnore⟩ directory) directory)
            (directory.join ⟨name⟩) false = false) := by
  have hempty : directory.isEmpty = false := (Disk.reach_eq_ok.1 (Disk.reach_of_resolve h.resolves)).2.1
  obtain ⟨content, mode, hnode⟩ := h.regular
  have hname : IsName name := wf.isName hnode name (by simp)
  refine ⟨_, walk_eq_ok { options with recursive := false } hexclude directory, ?_⟩
  rw [(@Walk.ofPlan_files _ d ⟨directory, ⟨options.hidden, options.gitIgnore⟩, exclusion⟩ wf place
    h.resolves h.isDirectory hinput false).2]
  have hopens : Walk.Opens directory [name] := by
    refine Walk.opens_cons.2 ⟨Disk.short_of_resolve h.resolves, fun front next back hway => ?_⟩
    simp at hway
  have hpasses : Walk.Passes d ⟨directory, ⟨options.hidden, options.gitIgnore⟩, exclusion⟩
      (IgnoreRules.above d ⟨options.hidden, options.gitIgnore⟩ directory) directory [] name
      (.file content mode) ↔ _ := Walk.passes_nil.trans Walk.Plan.admits_iff
  constructor
  · rintro ⟨way, hway, hdepth, hselects, -⟩
    obtain ⟨other, rfl⟩ := List.length_eq_one_iff.1 (hdepth rfl)
    obtain ⟨_, _, hother⟩ := hselects.regular
    have hsame : [name] = [other] := Path.joinAll_inj hempty (by simpa using hname)
      (fun n hn => wf.isName hother n (by simp [hn])) (congrArg _ hway)
    obtain rfl : name = other := List.head_eq_of_cons_eq hsame
    obtain ⟨hvisible, -, hincluded⟩ := hpasses.1 (hselects.passes [] name [] _ rfl hnode)
    exact ⟨hincluded, hvisible⟩
  · rintro ⟨hincluded, hvisible⟩
    exact ⟨[name], rfl, fun _ => rfl, Walk.selects_singleton.2 ⟨content, mode, hnode, h.supported,
      hpasses.2 ⟨hvisible, by simp, hincluded⟩⟩, hopens⟩

/-- A target is skipped when a pattern or a rule beside it keeps it out, and else processed. -/
theorem processTarget_skips [Host] (wf : d.WellFormed) (settings : Settings) {exclusion : Exclusion}
    (hexclude : Exclusion.ofPatterns settings.walk.exclude = .ok exclusion) (write : Bool) (path : Path) :
    ∃ r, (processTarget d settings write path).value = .ok r ∧
      (r.isSkipped = false ↔ exclusion.excludes path (path.parent?.getD path) = false ∧
        (SiblingRules.forFile d path settings.walk.gitIgnore).ignores path = false) := by
  rw [processTarget, hexclude]
  dsimp only
  split_ifs with hpattern hrule
  · exact ⟨_, rfl, by simp [FileResult.isSkipped, FileResult.skipped, hpattern]⟩
  · exact ⟨_, rfl, by simp [FileResult.isSkipped, FileResult.skipped, hrule]⟩
  · refine ⟨_, rfl, ?_⟩
    have hresult : (processFile d settings write path).value.isSkipped = false := by
      rw [(processFile_spec wf settings write path).1]
      refine FileResult.not_isSkipped ?_
      exact (judge_cases settings write path (d.readFile path) (d.admission path)).imp_right And.left
    simpa [hpattern, hrule] using hresult

/-- The rules beside a target are those of its directory. -/
theorem SiblingRules.ignores_join [IgnoreRules] (hname : IsName name)
    (hspelt : (directory.join ⟨name⟩).directory.join ⟨name⟩ = directory.join ⟨name⟩) {g : GitRules}
    {gitIgnore : Bool} (hgit : IgnoreRules.BuildsAsGit g (directory.join ⟨name⟩).directory)
    (husable : (IgnoreRules.build (directory.join ⟨name⟩).directory
      ((files d (directory.join ⟨name⟩).directory gitIgnore).map Prod.snd)).isOk) :
    (forFile d (directory.join ⟨name⟩) gitIgnore).ignores (directory.join ⟨name⟩) =
      (g.ofDirectory d gitIgnore directory name false == some .ignored) := by
  have hjoin : ∀ text : String, (Path.ofText text).isAbsolute = false →
      (directory.join ⟨name⟩).directory.join (Path.ofText text) = directory.join (Path.ofText text) :=
    fun text htext => Path.join_congr hname.not_isAbsolute htext hspelt
  have hsame : g.ofDirectory d gitIgnore (directory.join ⟨name⟩).directory name false =
      g.ofDirectory d gitIgnore directory name false := by
    rw [GitRules.ofDirectory, GitRules.ofDirectory, hjoin _ (by decide), hjoin _ (by decide)]
  cases hbuild : IgnoreRules.build (directory.join ⟨name⟩).directory
      ((files d (directory.join ⟨name⟩).directory gitIgnore).map Prod.snd) with
  | error details => simp [hbuild, Except.isOk, Except.toBool] at husable
  | ok verdict? =>
    have hverdict := hgit _ _ hbuild name hname false
    rw [hspelt, g.verdict?_files, hsame] at hverdict
    rw [ignores, forFile]
    simp only [hbuild, hverdict]

end Ends

/-- The walk of a directory reports a file exactly when the file as a target is not skipped, where no
ignore file plays a part but the two in the directory and rules are matched as git does it. The path of
the file has to be spelt with its directory, and the directory must not be taken for standard input. -/
theorem walk_agrees_with_target [Host] {d : Disk} (wf : d.WellFormed) (settings : Settings)
    (hhidden : settings.walk.hidden = true) {exclusion : Exclusion}
    (hexclude : Exclusion.ofPatterns settings.walk.exclude = .ok exclusion) {directory : Path}
    {place : Location} {name : Bytes} (h : Holds d directory place name) (halone : Alone d directory place)
    {g : GitRules} (hwalks : IgnoreRules.WalksAsGit g d settings.walk.gitIgnore directory place)
    (hbuilds : IgnoreRules.BuildsAsGit g (directory.join ⟨name⟩).directory)
    (husable : (IgnoreRules.build (directory.join ⟨name⟩).directory
      ((SiblingRules.files d (directory.join ⟨name⟩).directory settings.walk.gitIgnore).map
        Prod.snd)).isOk)
    (hinput : Path.same directory Walk.standardInput = false)
    (hspelt : (directory.join ⟨name⟩).directory.join ⟨name⟩ = directory.join ⟨name⟩) (write : Bool) :
    ∃ w r, walk d { settings.walk with recursive := false } directory = .ok w ∧
      (processTarget d settings write (directory.join ⟨name⟩)).value = .ok r ∧
      (directory.join ⟨name⟩ ∈ w.files ↔ r.isSkipped = false) := by
  have hempty : directory.isEmpty = false := (Disk.reach_eq_ok.1 (Disk.reach_of_resolve h.resolves)).2.1
  obtain ⟨content, mode, hnode⟩ := h.regular
  have hname : IsName name := wf.isName hnode name (by simp)
  obtain ⟨w, hw, hfile⟩ := h.mem_walk wf hinput hexclude
  obtain ⟨r, hr, hskipped⟩ := processTarget_skips wf settings hexclude write (directory.join ⟨name⟩)
  refine ⟨w, r, hw, hr, ?_⟩
  have hroot : directory.components =
      ((directory.join ⟨name⟩).parent?.getD (directory.join ⟨name⟩)).components := by
    have hcomponents := Path.components_join (Path.directory_not_isEmpty (directory.join ⟨name⟩)) hname
    rw [hspelt, Path.components_join hempty hname] at hcomponents
    rw [Path.parent?_of_directory_join hname hspelt]
    exact List.append_cancel_right hcomponents
  rw [hfile, hskipped, exclusion.excludes_congr hroot, hhidden, hwalks halone name hname false,
    SiblingRules.ignores_join hname hspelt hbuilds husable]

/-! ## A directory with two ignore files -/

/-- The rules of the standard library. -/
abbrev standardRules : GitRules where
  Rule := IgnoreRule
  rules content := (IgnoreFile.ofContent ⟨[]⟩ content).1
  accepts := fun r name isDirectory => r.accepts name isDirectory
  allows := IgnoreRule.allows

/-- The name of an ignore file shows in its faults alone. -/
theorem IgnoreFile.rules_ofContent (file file' : Path) (content : Bytes) :
    (ofContent file content).1 = (ofContent file' content).1 := by
  rw [ofContent, ofContent]
  induction (lines content).zipIdx with
  | nil => rfl
  | cons line rest ih =>
    obtain ⟨line, n⟩ := line
    rw [readLines, readLines]
    cases Utf8.text? line with
    | none => rfl
    | some text =>
      dsimp only
      cases IgnoreRule.parse (if n == 0 then withoutMark text else text) with
      | error fault => exact ih
      | ok rule =>
        cases rule with
        | none => exact ih
        | some rule => exact congrArg (rule :: ·) ih

namespace RuleList
variable {name : Bytes}

theorem bare_a (hname : IsName name) :
    ((Path.ofText "a").join ⟨name⟩).bytes = 0x61 :: slash :: name ∧
      bare (0x61 :: slash :: name) = 0x61 :: slash :: name :=
  ⟨congrArg Path.bytes (Path.join_of_ne_slash (by decide) (by decide) hname.isPart),
    by simp [bare, Bytes.after?, dot]⟩

/-- The rules of the directory `a` see the names of its entries. -/
theorem verdict?_a (rules : List IgnoreRule) (hname : IsName name) (isDirectory : Bool) :
    (ofRules (Path.ofText "a") rules).verdict? (bare ((Path.ofText "a").join ⟨name⟩).bytes) isDirectory =
        standardRules.verdict? rules name isDirectory ∧
      (ofRules (Path.ofText "a") rules).verdict? ((Path.ofText "a").join ⟨name⟩).bytes isDirectory =
        standardRules.verdict? rules name isDirectory := by
  obtain ⟨hbytes, hbare⟩ := bare_a hname
  have hroot : bare (Path.ofText "a").bytes = [0x61] := by decide
  have hhere : Path.same ⟨[0x61]⟩ Path.here = false := by decide
  have hview : (ofRules (Path.ofText "a") rules).view (0x61 :: slash :: name) = name := by
    rw [view, hbare, ofRules, hroot, hhere]
    simp [Bytes.after?]
  rw [hbytes, hbare, verdict?, hview]
  exact ⟨rfl, rfl⟩

end RuleList

theorem buildsAsGit_a : IgnoreRules.BuildsAsGit standardRules (Path.ofText "a") := by
  intro contents verdict? hbuild name hname isDirectory
  have hrules : contents.flatMap (fun content => (IgnoreFile.ofContent (Path.ofText "a") content).1) =
      contents.flatMap standardRules.rules :=
    List.flatMap_congr fun content _ => IgnoreFile.rules_ofContent _ _ content
  have hbuild : IgnoreFile.build (Path.ofText "a") contents = .ok verdict? := hbuild
  simp only [IgnoreFile.build, hrules] at hbuild
  split at hbuild
  · cases hbuild
  · obtain rfl := Except.ok.inj hbuild
    exact (RuleList.verdict?_a _ hname isDirectory).2

/-- A file that one ignore file keeps out and the other takes back in. -/
def ruledFolder : Disk :=
  { entries :=
      [([Bytes.ofText "a"], .directory),
        ([Bytes.ofText "a", Bytes.ofText ".gitignore"], .file (Bytes.ofText "/f.ts") 0o644),
        ([Bytes.ofText "a", Bytes.ofText ".commenterignore"], .file (Bytes.ofText "!/f.ts") 0o644),
        ([Bytes.ofText "a", Bytes.ofText "f.ts"], .file [] 0o644)]
    home := [] }

/-- The rule of the line `/f.ts`, with or without a bang in front. -/
def fileRule (allows : Bool) : IgnoreRule :=
  ⟨⟨Glob.lenient, [.literal 'f', .literal '.', .literal 't', .literal 's']⟩, allows, false⟩

/-- The rules of each kind that the folder has. -/
def folderRules : RuleSource → List IgnoreRule
  | .own => [fileRule true]
  | .git => [fileRule false]
  | _ => []

theorem read_ruledFolder : (DirectoryRules.read ruledFolder true (Path.ofText "a")).lists =
    [(.own, RuleList.ofRules (Path.ofText "a") [fileRule true]),
      (.general, RuleList.ofRules (Path.ofText "a") []),
      (.git, RuleList.ofRules (Path.ofText "a") [fileRule false]),
      (.gitExclude, RuleList.ofRules (Path.ofText "a") [])] := by
  cbv

theorem start_ruledFolder : (RuleStack.start ruledFolder true (Path.ofText "a")).inner = [] ∧
    ∀ r ∈ (RuleStack.start ruledFolder true (Path.ofText "a")).outer, r.Silent := by
  have hall : (RuleStack.start ruledFolder true (Path.ofText "a")).outer.all
      (·.lists.all (·.2.rules.isEmpty)) := by
    cbv
  refine ⟨by cbv, fun r hr e he => ?_⟩
  simpa using List.all_eq_true.1 (List.all_eq_true.1 hall r hr) e he

theorem ofDirectory_ruledFolder (name : Bytes) (isDirectory : Bool) :
    standardRules.ofDirectory ruledFolder true (Path.ofText "a") name isDirectory =
      (standardRules.verdict? [fileRule true] name isDirectory).or
        (standardRules.verdict? [fileRule false] name isDirectory) := by
  have hown : ruledFolder.read ((Path.ofText "a").join (Path.ofText IgnoreFile.ownName)) =
      .ok (Bytes.ofText "!/f.ts") := by cbv
  have hgit : ruledFolder.read ((Path.ofText "a").join (Path.ofText IgnoreFile.gitName)) =
      .ok (Bytes.ofText "/f.ts") := by cbv
  have hrules : (IgnoreFile.ofContent ⟨[]⟩ (Bytes.ofText "!/f.ts")).1 = [fileRule true] ∧
      (IgnoreFile.ofContent ⟨[]⟩ (Bytes.ofText "/f.ts")).1 = [fileRule false] := by
    constructor <;> cbv
  rw [GitRules.ofDirectory, GitRules.ofFile, GitRules.ofFile, hown, hgit]
  simp only [Except.toOption, Option.bind_some, hrules, if_true]

theorem verdict?_ruledFolder {name : Bytes} (hname : IsName name) (isDirectory : Bool) :
    ((RuleStack.start ruledFolder true (Path.ofText "a")).enter
        (DirectoryRules.read ruledFolder true (Path.ofText "a"))).verdict?
        ((Path.ofText "a").join ⟨name⟩) isDirectory =
      standardRules.ofDirectory ruledFolder true (Path.ofText "a") name isDirectory := by
  obtain ⟨hinner, houter⟩ := start_ruledFolder
  have hof : ∀ (source : RuleSource) (path : Bytes),
      ((RuleStack.start ruledFolder true (Path.ofText "a")).enter
        (DirectoryRules.read ruledFolder true (Path.ofText "a"))).verdictOf? source path isDirectory =
      (DirectoryRules.read ruledFolder true (Path.ofText "a")).verdict? source path isDirectory := by
    simp [RuleStack.verdictOf?, RuleStack.enter, hinner, DirectoryRules.findSome?_verdict? houter]
  have hrules := fun rules => (RuleList.verdict?_a rules hname isDirectory).1
  have hnone : standardRules.verdict? [] name isDirectory = none := rfl
  have hlookup : ∀ source, (DirectoryRules.read ruledFolder true (Path.ofText "a")).lists.lookup source =
      some (RuleList.ofRules (Path.ofText "a") (folderRules source)) := by
    intro source
    rw [read_ruledFolder]
    cases source <;> rfl
  rw [ofDirectory_ruledFolder, RuleStack.verdict?, RuleSource.all]
  simp only [List.findSome?_cons, List.findSome?_nil, hof, DirectoryRules.verdict?, hlookup,
    Option.bind_some, hrules, folderRules, hnone]
  generalize standardRules.verdict? [fileRule true] name isDirectory = own
  generalize standardRules.verdict? [fileRule false] name isDirectory = git
  cases own <;> cases git <;> rfl

theorem walksAsGit_ruledFolder : IgnoreRules.WalksAsGit standardRules ruledFolder true (Path.ofText "a")
    [Bytes.ofText "a"] := by
  intro _ name hname isDirectory
  have hrejects : RuleStack.rejects ⟨true, true⟩ ((RuleStack.start ruledFolder true
      (Path.ofText "a")).enter (DirectoryRules.read ruledFolder true (Path.ofText "a")))
      ((Path.ofText "a").join ⟨name⟩) isDirectory =
        (standardRules.ofDirectory ruledFolder true (Path.ofText "a") name isDirectory ==
          some .ignored) := by
    rw [RuleStack.rejects, verdict?_ruledFolder hname]
    cases standardRules.ofDirectory ruledFolder true (Path.ofText "a") name isDirectory with
    | none => rfl
    | some verdict => cases verdict <;> rfl
  exact hrejects

theorem usable_ruledFolder : (IgnoreRules.build (Path.ofText "a")
    ((SiblingRules.files ruledFolder (Path.ofText "a") true).map Prod.snd)).isOk := by
  have hcontents : (SiblingRules.files ruledFolder (Path.ofText "a") true).map Prod.snd =
      [Bytes.ofText "/f.ts", Bytes.ofText "!/f.ts"] := by cbv
  have hfault : CompileFault.find? ([Bytes.ofText "/f.ts", Bytes.ofText "!/f.ts"].flatMap
      fun content => (IgnoreFile.ofContent (Path.ofText "a") content).1) = none := by cbv
  have hbuild : (IgnoreFile.build (Path.ofText "a")
      [Bytes.ofText "/f.ts", Bytes.ofText "!/f.ts"]).isOk := by
    simp only [IgnoreFile.build, hfault]
    rfl
  rw [hcontents]
  exact hbuild

theorem holds_ruledFolder :
    Holds ruledFolder (Path.ofText "a") [Bytes.ofText "a"] (Bytes.ofText "f.ts") :=
  ⟨by cbv, by cbv, ⟨[], 0o644, by cbv⟩, by cbv⟩

theorem alone_ruledFolder : Alone ruledFolder (Path.ofText "a") [Bytes.ofText "a"] := by
  refine ⟨by cbv, by cbv, fun loc hloc hne => ?_⟩
  obtain rfl : loc = [] := by
    rcases List.prefix_cons_iff.1 hloc with rfl | ⟨t, rfl, ht⟩
    · rfl
    · rw [List.prefix_nil.1 ht] at hne
      exact absurd rfl hne
  have hall : [IgnoreFile.ownName, ".ignore", IgnoreFile.gitName, ".git/info/exclude"].all
      (fun name => !ruledFolder.isFile ((Disk.absolute []).join (Path.ofText name))) := by cbv
  simpa using hall

theorem walk_agrees_with_target_ruledFolder :
    ∃ w r, walk ruledFolder { recursive := false } (Path.ofText "a") = .ok w ∧
      (processTarget ruledFolder { jobs := 1 } true (Path.ofText "a/f.ts")).value = .ok r ∧
      (Path.ofText "a/f.ts" ∈ w.files ↔ r.isSkipped = false) ∧ Path.ofText "a/f.ts" ∈ w.files := by
  have hwf : ruledFolder.WellFormed := of_decide_eq_true (by cbv)
  have hpath : (Path.ofText "a").join ⟨Bytes.ofText "f.ts"⟩ = Path.ofText "a/f.ts" := by cbv
  have hbeside : (Path.ofText "a/f.ts").directory = Path.ofText "a" := by cbv
  have hinput : Path.same (Path.ofText "a") Walk.standardInput = false := by cbv
  have hagree := @walk_agrees_with_target _ ruledFolder hwf { jobs := 1 } rfl {} rfl (Path.ofText "a")
    [Bytes.ofText "a"] (Bytes.ofText "f.ts") holds_ruledFolder alone_ruledFolder standardRules
    walksAsGit_ruledFolder
  have hgitIgnore : ({ jobs := 1 } : Settings).walk.gitIgnore = true := rfl
  rw [hpath, hbeside, hpath, hgitIgnore] at hagree
  obtain ⟨w, r, hw, hr, hsame⟩ := hagree buildsAsGit_a usable_ruledFolder hinput rfl true
  have hexclude : Exclusion.ofPatterns ({} : WalkOptions).exclude = .ok {} := rfl
  obtain ⟨w', hw', hfile⟩ := holds_ruledFolder.mem_walk hwf hinput hexclude
  obtain rfl : w' = w := Except.ok.inj (hw'.symm.trans hw)
  have hallowed := walksAsGit_ruledFolder alone_ruledFolder (Bytes.ofText "f.ts") (by decide) false
  rw [ofDirectory_ruledFolder] at hallowed
  refine ⟨w', r, hw, hr, hsame, ?_⟩
  rw [← hpath]
  exact hfile.2 ⟨by simp [Exclusion.excludes], hallowed.trans (by decide)⟩

/-- With a second slash behind the directory a rule tied to it does not match the target. -/
example :
    let d : Disk := ⟨[([Bytes.ofText "a"], .directory),
      ([Bytes.ofText "a", Bytes.ofText ".gitignore"], .file (Bytes.ofText "/f.ts") 0o644),
      ([Bytes.ofText "a", Bytes.ofText "f.ts"], .file [] 0o644)], []⟩
    (walk d { recursive := false } (Path.ofText "a//")).map Walk.files = .ok [] ∧
      (processTarget d { jobs := 1 } false (Path.ofText "a//f.ts")).value.map FileResult.isSkipped =
        .ok false := by
  constructor <;> cbv

end Uncomment
