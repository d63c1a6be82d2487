import Mathlib
import Uncomment.Process
import Uncomment.Proofs.Distinct
import Uncomment.Proofs.TerminalFailures

/-! Spellings of one path. Slashes in a row make a path longer and nothing else. A directory can so be
out of reach for a walk that a shorter spelling would lead to, and a walk can report two faults of one
path. -/
namespace Uncomment
open Ascii

/-! ## Slashes in a row -/

theorem Bytes.split_replicate (c : UInt8) (n : Nat) (s : Bytes) :
    split c (List.replicate n c ++ s) = List.replicate n [] ++ split c s := by
  induction n with
  | zero => rfl
  | succ n ih => simp [List.replicate_succ, split, ih]

/-- A name, slashes and more names. -/
def Path.slashed (name : Bytes) (n : Nat) (tail : Bytes) : Path :=
  ⟨name ++ slash :: (List.replicate n slash ++ tail)⟩

namespace Path
variable {name tail : Bytes} {n : Nat}

theorem length_slashed : (slashed name n tail).bytes.length = name.length + n + tail.length + 1 := by
  simp [slashed]
  omega

theorem slashed_join (h : IsName tail) : (slashed name n []).join ⟨tail⟩ = slashed name n tail := by
  have hbytes : slashed name n [] = ⟨(name ++ List.replicate n slash) ++ [slash]⟩ := by
    simp [slashed, ← List.replicate_succ', List.replicate_succ]
  rw [hbytes, join_of_slash h.isPart]
  simp only [slashed, mk.injEq, List.append_assoc, List.append_cancel_left_eq]
  rw [← List.cons_append, ← List.replicate_succ, List.replicate_succ', List.append_assoc]
  rfl

theorem nul_notMem_slashed (h : IsName name) (htail : nul ∉ tail) :
    nul ∉ (slashed name n tail).bytes := by
  have hslash : nul ≠ slash := by decide
  simp [slashed, h.no_nul, htail, hslash]

theorem lead_slashed (h : IsName name) : (slashed name n tail).lead = none := by
  have hlead := lead_of_names (List.forall_mem_singleton.2 h)
  rw [slashed, lead_append h.ne_nil]
  simpa [Bytes.join] using hlead

theorem parts_slashed (h : IsName name) :
    (slashed name n tail).parts = name :: (List.replicate n [] ++ Bytes.split slash tail) := by
  have hparts : parts ⟨name⟩ = [name] := by
    simpa [Bytes.join] using
      parts_of_names (List.cons_ne_nil name []) (List.forall_mem_singleton.2 h)
  rw [slashed, parts_append h.ne_nil, Bytes.split_replicate, hparts]
  rfl

theorem components_slashed (h : IsName name) :
    (slashed name n tail).components = .name name ::
      ((Bytes.split slash tail).filter (!isFiller ·)).map partComponent := by
  have hfillers : (List.replicate n ([] : Bytes)).filter (!isFiller ·) = [] := by
    simp [isFiller]
  simp [components, lead_slashed h, parts_slashed h, h.not_isFiller, h.partComponent_eq, hfillers]

theorem le_length_join (p : Path) {q : Path} (h : q.isAbsolute = false) :
    p.bytes.length + q.bytes.length ≤ (p.join q).bytes.length := by
  simp only [join, h, Bool.false_eq_true, if_false]
  split_ifs <;> simp

end Path

namespace Disk
variable {d : Disk} {name tail : Bytes}

theorem locate_replicate_here {follow : Bool} {links : Nat} {loc : Location}
    (h : d.node? loc = some .directory) (n : Nat) (rest : List Component) :
    d.locate follow links loc (List.replicate n .here ++ rest) = d.locate follow links loc rest := by
  induction n with
  | zero => rfl
  | succ n ih => simpa [List.replicate_succ, locate, h] using ih

/-- Slashes behind the name of a directory do not lead elsewhere. -/
theorem reach_slashed (hname : IsName name) (hhome : d.node? d.home = some .directory)
    (hdir : d.node? (d.home ++ [name]) = some .directory) (htail : nul ∉ tail) (follow : Bool) (n : Nat) :
    d.reach follow (.slashed name n tail) = d.locate follow linkLimit (d.home ++ [name])
      ((Bytes.split slash tail).map fun part =>
        if Path.isFiller part then .here else Path.partComponent part) := by
  have hnul : nul ∉ (Path.slashed name n tail).bytes := Path.nul_notMem_slashed hname htail
  have hempty : (Path.slashed name n tail).isEmpty = false := by simp [Path.slashed, Path.isEmpty]
  have hsteps : steps (.slashed name n tail) = .name name :: (List.replicate n .here ++
      (Bytes.split slash tail).map fun part =>
        if Path.isFiller part then .here else Path.partComponent part) := by
    simp [steps, Path.lead_slashed hname, Path.parts_slashed hname, hname.ne_nil, hname.ne_here,
      hname.partComponent_eq, Path.isFiller]
  have hshort := not_lt.2 hname.short
  simp [reach, hnul, hempty, hsteps, locate, hhome, hshort, hdir, locate_replicate_here hdir]

end Disk

/-! ## The rules of a directory without ignore files -/

theorem IgnoreFile.read_of_stat {d : Disk} {file : Path} {fault : IoFault}
    (h : d.stat file = .error fault) : read d file = ([], []) := by
  simp [read, Disk.read, h, Disk.pathExists, Except.isOk, Except.toBool]

namespace DirectoryRules
variable {d : Disk}

theorem ofFile_of_stat {file : Path} {fault : IoFault} (h : d.stat file = .error fault) :
    ofFile d file = ([], none) := by
  simp [ofFile, IgnoreFile.read_of_stat h, CompileFault.find?]

/-- Rules that say nothing. -/
def Silent (r : DirectoryRules) : Prop := ∀ e ∈ r.lists, e.2.rules = []

theorem silent_read {gitIgnore : Bool} {directory : Path}
    (h : ∀ source ∈ RuleSource.admitted gitIgnore, (ofSource d directory source).1 = []) :
    (read d gitIgnore directory).Silent := by
  intro e he
  simp only [read, List.map_map, List.mem_map, Function.comp_apply] at he
  obtain ⟨source, hsource, rfl⟩ := he
  exact h source hsource

theorem Silent.verdict? {r : DirectoryRules} (h : r.Silent) (source : RuleSource) (path : Bytes)
    (isDirectory : Bool) : r.verdict? source path isDirectory = none := by
  rw [DirectoryRules.verdict?]
  cases hl : r.lists.lookup source with
  | none => rfl
  | some l =>
    obtain ⟨before, after, hlists, -⟩ := List.lookup_eq_some_iff.1 hl
    have hrules : l.rules = [] := h (source, l) (by simp [hlists])
    simp [RuleList.verdict?, hrules]

theorem findSome?_verdict? {rs : List DirectoryRules} (h : ∀ r ∈ rs, r.Silent) (source : RuleSource)
    (path : Bytes) (isDirectory : Bool) :
    rs.findSome? (·.verdict? source path isDirectory) = none :=
  List.findSome?_eq_none_iff.2 fun r hr => (h r hr).verdict? source path isDirectory

end DirectoryRules

theorem RuleStack.verdict?_of_silent {s : RuleStack} (hinner : ∀ r ∈ s.inner, r.Silent)
    (houter : ∀ r ∈ s.outer, r.Silent) (path : Path) (isDirectory : Bool) :
    s.verdict? path isDirectory = none := by
  rw [RuleStack.verdict?, List.findSome?_eq_none_iff]
  intro source _
  simp [verdictOf?, DirectoryRules.findSome?_verdict? hinner, DirectoryRules.findSome?_verdict? houter]

theorem RuleStack.rejects_of_silent {options : IgnoreOptions} (hhidden : options.hidden = true)
    {s : RuleStack} (hinner : ∀ r ∈ s.inner, r.Silent) (houter : ∀ r ∈ s.outer, r.Silent) (path : Path)
    (isDirectory : Bool) : rejects options s path isDirectory = false := by
  rw [rejects, verdict?_of_silent hinner houter]
  simp [hhidden]

/-- Where no rule decides and no pattern excludes, a walk that shows hidden entries passes over the
version control data alone. -/
theorem Walk.Plan.admits_of_silent {p : Plan} (hhidden : p.ignoring.hidden = true)
    (hexclusion : p.exclusion = {}) {s : RuleStack} (hinner : ∀ r ∈ s.inner, r.Silent)
    (houter : ∀ r ∈ s.outer, r.Silent) (path : Path) (name : Bytes) (node : Node) :
    p.admits s path name node = !isVersionControl name node := by
  have hrejects := RuleStack.rejects_of_silent hhidden hinner houter path node.isDirectory
  have hadmits : p.admits s path name node = (!RuleStack.rejects p.ignoring s path node.isDirectory
      && !isVersionControl name node && !p.exclusion.excludes path p.root) := rfl
  rw [hadmits, hrejects, hexclusion]
  simp [Exclusion.excludes]

/-! ## A walk -/

/-- A linked working tree whose data are in `s`, with a directory in the place of the file that names
the shared directory. -/
def strayTree : Disk :=
  { entries :=
      [([Bytes.ofText ".git"], .file (Bytes.ofText "gitdir: s") 0o644),
        ([Bytes.ofText "s"], .directory),
        ([Bytes.ofText "s", Bytes.ofText "commondir"], .directory)]
    home := [] }

/-- The directory `s` with so many slashes that there is no room for `commondir`. -/
def strayRoot : Path := .slashed (Bytes.ofText "s") 4085 []

theorem isName_s : IsName (Bytes.ofText "s") := by decide

theorem node?_s : strayTree.node? [Bytes.ofText "s"] = some .directory := by decide

theorem reach_strayRoot : strayTree.reach true strayRoot = .ok [Bytes.ofText "s"] := by
  rw [strayRoot, Disk.reach_slashed isName_s rfl node?_s (by simp)]
  cbv

theorem resolve_strayRoot : strayTree.resolve true strayRoot = .ok [Bytes.ofText "s"] := by
  rw [Disk.resolve_of_reach, reach_strayRoot]
  rw [strayRoot, Path.length_slashed]
  decide

/-- Behind the root nothing is found but `commondir`. -/
theorem stat_strayRoot_join {name : Bytes} (h : IsName name)
    (hnone : strayTree.node? [Bytes.ofText "s", name] = none) :
    ∃ fault, strayTree.stat (strayRoot.join ⟨name⟩) = .error fault := by
  have hresolve : ∃ fault, strayTree.resolve true (strayRoot.join ⟨name⟩) = .error fault := by
    rw [strayRoot, Path.slashed_join h, Disk.resolve]
    split_ifs
    · exact ⟨_, rfl⟩
    · have hnode := node?_s
      have hhome : strayTree.home = [] := rfl
      rw [Disk.reach_slashed isName_s rfl hnode h.no_nul, h.split_eq]
      have hlocate : strayTree.locate true Disk.linkLimit [Bytes.ofText "s"] [.name name] =
          .error .noEntry := by
        simp [Disk.locate, hnode, not_lt.2 h.short, hnone]
      exact ⟨.noEntry, by simpa [hhome, h.ne_nil, h.ne_here, h.partComponent_eq, Path.isFiller]⟩
  obtain ⟨fault, hfault⟩ := hresolve
  exact ⟨fault, by simp [Disk.stat, hfault, bind, Except.bind]⟩

theorem Disk.stat_of_long (d : Disk) {p : Path} (h : pathLimit ≤ p.bytes.length) :
    ∃ fault, d.stat p = .error fault := by
  by_cases hnul : nul ∈ p.bytes
  · exact ⟨.nulByte, by simp [stat, resolve, reach, hnul, bind, Except.bind]⟩
  · exact ⟨.nameTooLong, by simp [stat, resolve, h, hnul, bind, Except.bind]⟩

theorem silent_strayRoot : (DirectoryRules.read strayTree true strayRoot).Silent := by
  have hnamed : ∀ text : String, IsName (Bytes.ofText text) →
      strayTree.node? [Bytes.ofText "s", Bytes.ofText text] = none →
      (DirectoryRules.ofFile strayTree (strayRoot.join (Path.ofText text))).1 = [] := by
    intro text hname hnone
    obtain ⟨fault, hfault⟩ := stat_strayRoot_join hname hnone
    have hofFile := DirectoryRules.ofFile_of_stat hfault
    exact congrArg Prod.fst hofFile
  refine DirectoryRules.silent_read fun source _ => ?_
  cases source with
  | own => exact hnamed ".commenterignore" (by decide) (by decide)
  | general => exact hnamed ".ignore" (by decide) (by decide)
  | git => exact hnamed ".gitignore" (by decide) (by decide)
  | gitExclude =>
    have hgit : IsName (Bytes.ofText ".git") := by decide
    obtain ⟨fault, hfault⟩ := stat_strayRoot_join hgit (by decide)
    have hfile : RuleSource.gitExclude.file strayTree strayRoot =
        .ok (some ((strayRoot.join (Path.ofText ".git")).join (Path.ofText "info/exclude"))) := by
      have hstat : strayTree.stat (strayRoot.join (Path.ofText ".git")) = .error fault := hfault
      simp [RuleSource.file, WorkingTree.excludeFile, WorkingTree.dataOf, hstat, pure, Except.pure,
        Except.map]
    have hlength : Disk.pathLimit ≤
        ((strayRoot.join (Path.ofText ".git")).join (Path.ofText "info/exclude")).bytes.length := by
      have hjoin := (strayRoot.join (Path.ofText ".git")).le_length_join
        (q := Path.ofText "info/exclude") (by decide)
      have hshort : (strayRoot.join (Path.ofText ".git")).bytes.length = 4091 := by
        rw [strayRoot, Path.ofText, Path.slashed_join hgit, Path.length_slashed]
        decide
      have hexclude : (Path.ofText "info/exclude").bytes.length = 12 := by decide
      rw [hshort, hexclude] at hjoin
      exact le_trans (by decide) hjoin
    obtain ⟨fault, hlong⟩ := strayTree.stat_of_long hlength
    rw [DirectoryRules.ofSource, hfile]
    exact congrArg Prod.fst (DirectoryRules.ofFile_of_stat hlong)

theorem start_strayRoot : RuleStack.start strayTree true strayRoot =
    { root := strayRoot, base := some (Path.ofText "/s"),
      outer := [DirectoryRules.read strayTree true (Path.ofText "/")] } := by
  have hcanonical : strayTree.canonical strayRoot = .ok (Path.ofText "/s") := by
    rw [Disk.canonical_of_reach reach_strayRoot]
    decide
  rw [RuleStack.start, hcanonical, resolve_strayRoot]
  rfl

theorem report_strayTree : (DirectoryRules.read strayTree true (Path.ofText "/")).report =
    some (.one (.reference (Path.ofText "s/commondir") .isDirectory)) := by
  cbv

theorem silent_strayTree : (DirectoryRules.read strayTree true (Path.ofText "/")).Silent := by
  have hall : (DirectoryRules.read strayTree true (Path.ofText "/")).lists.all (·.2.rules.isEmpty) := by
    cbv
  intro e he
  simpa using List.all_eq_true.1 hall e he

theorem stat_strayRoot : strayTree.stat strayRoot = .ok .directory :=
  Disk.stat_eq_ok.2 ⟨_, resolve_strayRoot, node?_s⟩

theorem list_strayRoot :
    strayTree.list strayRoot = .ok [(Bytes.ofText "commondir", .directory)] := by
  have hchildren : strayTree.children [Bytes.ofText "s"] =
      [(Bytes.ofText "commondir", .directory)] := by decide
  have hnode := node?_s
  rw [Disk.list, resolve_strayRoot]
  simp [bind, Except.bind, hnode, hchildren, pure, Except.pure]

theorem isName_commondir : IsName (Bytes.ofText "commondir") := by decide

theorem length_commondir : (strayRoot.join ⟨Bytes.ofText "commondir"⟩).bytes.length = 4096 := by
  rw [strayRoot, Path.slashed_join isName_commondir, Path.length_slashed]
  decide

theorem components_commondir : (strayRoot.join ⟨Bytes.ofText "commondir"⟩).components =
    (Path.ofText "s/commondir").components := by
  rw [strayRoot, Path.slashed_join isName_commondir, Path.components_slashed isName_s]
  decide

theorem list_commondir :
    strayTree.list (strayRoot.join ⟨Bytes.ofText "commondir"⟩) = .error .nameTooLong := by
  have hlong : Disk.pathLimit ≤ (strayRoot.join ⟨Bytes.ofText "commondir"⟩).bytes.length := by
    rw [length_commondir]
    exact Nat.le_refl _
  have hnul : nul ∉ (strayRoot.join ⟨Bytes.ofText "commondir"⟩).bytes := by
    rw [strayRoot, Path.slashed_join isName_commondir]
    exact Path.nul_notMem_slashed isName_s isName_commondir.no_nul
  simp [Disk.list, Disk.resolve, hlong, hnul, bind, Except.bind]

/-- What a walk of the root with the default options goes by. -/
def strayPlan : Walk.Plan := { root := strayRoot, ignoring := ⟨true, true⟩, exclusion := {} }

theorem below_strayRoot (levels : Nat) :
    Walk.below strayTree strayPlan (RuleStack.start strayTree true strayRoot) strayRoot (levels + 2) =
      [Walk.faultItem (strayRoot.join ⟨Bytes.ofText "commondir"⟩) .nameTooLong] := by
  have hadmits : strayPlan.admits ((RuleStack.start strayTree true strayRoot).enter
      (DirectoryRules.read strayTree true strayRoot))
      (strayRoot.join ⟨Bytes.ofText "commondir"⟩) (Bytes.ofText "commondir") .directory = true := by
    rw [Walk.Plan.admits_of_silent rfl rfl]
    · decide
    · rw [start_strayRoot]
      simpa [RuleStack.enter] using silent_strayRoot
    · rw [start_strayRoot]
      simpa [RuleStack.enter] using silent_strayTree
  have hscope : IgnoreRules.enter strayTree strayPlan.ignoring
      (RuleStack.start strayTree true strayRoot) strayRoot =
        (RuleStack.start strayTree true strayRoot).enter
          (DirectoryRules.read strayTree true strayRoot) := rfl
  rw [Walk.below_of_list list_strayRoot, hscope, List.flatMap_singleton, Walk.entryItems_eq, hadmits,
    if_pos rfl]
  exact Walk.below_of_error list_commondir ..

theorem not_same_strayRoot : Path.same strayRoot Walk.standardInput = false := by
  rw [Path.same, strayRoot, Path.components_slashed isName_s]
  decide

/-- The batch for the root begins with a walk. -/
theorem start_strayTree : Stage.start strayTree { jobs := 1 } true strayRoot =
    .ok (Stage.ofPlan strayTree strayPlan 3) := by
  have hstat := stat_strayRoot
  rw [Stage.start, GlobTarget.not_isPattern_of_stat hstat, hstat]
  rfl

/-- The tasks for the root are two faults. -/
theorem tasks_strayTree : (Stage.ofPlan strayTree strayPlan 3).tasks =
    [.item (.failed (Path.ofText "s/commondir")
        (IgnoreFault.reference (Path.ofText "s/commondir") .isDirectory).message),
      .item (Walk.faultItem (strayRoot.join ⟨Bytes.ofText "commondir"⟩) .nameTooLong)] := by
  have hreport : (RuleStack.start strayTree true strayRoot).report =
      some (.one (.reference (Path.ofText "s/commondir") .isDirectory)) := by
    have houter := report_strayTree
    rw [start_strayRoot]
    simp [RuleStack.report, houter, FaultReport.ofParts]
  have hfaults : IgnoreRules.faultsAbove strayTree strayPlan.ignoring strayPlan.root =
      ([(Path.ofText "s/commondir",
        (IgnoreFault.reference (Path.ofText "s/commondir") .isDirectory).message)], []) := by
    have hfaults : IgnoreRules.faultsAbove strayTree strayPlan.ignoring strayPlan.root =
        (RuleStack.start strayTree true strayRoot).faults := rfl
    rw [hfaults, RuleStack.faults, hreport]
    rfl
  have hstart : Walk.start strayTree strayPlan =
      [.item (.failed (Path.ofText "s/commondir")
        (IgnoreFault.reference (Path.ofText "s/commondir") .isDirectory).message),
        .directory strayRoot] := by
    have hinput : Path.same strayPlan.root Walk.standardInput = false := not_same_strayRoot
    have hstat : strayTree.stat strayPlan.root = .ok .directory := stat_strayRoot
    rw [Walk.start, hinput, hstat, hfaults]
    rfl
  have hbelow : Walk.below strayTree strayPlan (IgnoreRules.above strayTree strayPlan.ignoring
      strayPlan.root) strayRoot 3 =
        [Walk.faultItem (strayRoot.join ⟨Bytes.ofText "commondir"⟩) .nameTooLong] :=
    below_strayRoot 1
  rw [Stage.tasks_ofPlan, Walk.ofPlan, hstart]
  simp only [List.flatMap_cons, List.flatMap_nil, List.append_nil, Walk.Find.items, hbelow,
    List.map_cons, List.map_nil, List.cons_append, List.nil_append]

end Uncomment
