import Mathlib
import Uncomment.Process
import Uncomment.Proofs.Rescan
import Uncomment.Proofs.Rewriting

/-! Processing one file. The result depends on what is read of the file and on whether it can be
rewritten, and the disk is changed by a rewrite alone. -/
namespace Uncomment

namespace FileResult
variable {r : FileResult}

theorem not_isError_of_isSuccess (h : r.isSuccess) : r.isError = false := by
  have houtcome : r.outcome = .success := by simpa [isSuccess] using h
  simp [isError, errorKind?, houtcome]

theorem not_isSuccess_of_isError (h : r.isError) : r.isSuccess = false := by
  by_contra hno
  simp [not_isError_of_isSuccess (by simpa using hno)] at h

end FileResult

/-- The content that a file has after its comments are taken out. -/
def strippedContent? (d : Disk) (settings : Settings) (path : Path) : Option Bytes :=
  match path.language?, d.read path with
  | some lang, .ok input => some (strip lang settings.stripOptions input).output
  | _, _ => none

theorem strippedContent?_eq_some {d : Disk} {settings : Settings} {path : Path} {new : Bytes} :
    strippedContent? d settings path = some new ↔
      ∃ lang input, path.language? = some lang ∧ d.read path = .ok input ∧
        (strip lang settings.stripOptions input).output = new := by
  rw [strippedContent?]
  cases path.language? with
  | none => simp
  | some lang => cases d.read path <;> simp

theorem Disk.read_of_readFile [Device] {d : Disk} {path : Path} {content : Bytes}
    (h : d.readFile path = .ok content) : d.read path = .ok content := of_permit h

/-- The result for a file, from what reading it gives and whether it can be rewritten. -/
def judge [Clock] (settings : Settings) (write : Bool) (path : Path)
    (content : Except IoFault Bytes) (admission : Except IoFault Unit) : FileResult :=
  match path.language? with
  | none =>
    FileResult.failed path none
      (.unsupportedLanguage path ((path.extension?.map Utf8.lossy).getD ""))
  | some lang =>
    match content with
    | .error fault => FileResult.failed path (some lang.name) (.ofRead path fault)
    | .ok input =>
      match stripFile lang settings.stripOptions path input with
      | .error failure => FileResult.failed path (some lang.name) failure
      | .ok o =>
        if !write || input == o.output then
          FileResult.success path lang (LineStats.of input o.output) o false
        else match admission with
          | .error fault => FileResult.failed path (some lang.name) (.writeFailure path fault)
          | .ok () => FileResult.success path lang (LineStats.of input o.output) o true

/-- The file that a path leads to gets the stripped content, and that is not what it had. -/
structure Rewrites (d : Disk) (settings : Settings) (path : Path) (loc : Location) (mode : Nat)
    (old new : Bytes) : Prop where
  resolves : d.resolve true path = .ok loc
  file : d.node? loc = some (.file old mode)
  stripped : strippedContent? d settings path = some new
  changed : old ≠ new

theorem Rewrites.read {d : Disk} {settings : Settings} {path : Path} {loc : Location} {mode : Nat}
    {old new : Bytes} (h : Rewrites d settings path loc mode old new) : d.read path = .ok old :=
  Disk.read_eq_ok.2 ⟨loc, mode, h.resolves, h.file⟩

theorem Rewrites.read_set {d : Disk} (wf : d.WellFormed) {settings : Settings} {path : Path}
    {loc : Location} {mode : Nat} {old new : Bytes} (h : Rewrites d settings path loc mode old new) :
    (d.set loc (.file new mode)).read path = .ok new := by
  refine Disk.read_eq_ok.2 ⟨loc, mode, ?_, ?_⟩
  · rw [← Disk.resolve_outline, Disk.outline_set_file wf h.file, Disk.resolve_outline, h.resolves]
  · rw [Disk.node?_set (Disk.ne_nil_of_file h.file), if_pos rfl]

/-- A disk on which one file has other content and everything else is as before. -/
structure Disk.Rewritten (before after : Disk) (loc : Location) (old new : Bytes) : Prop where
  file : ∃ mode, before.node? loc = some (.file old mode) ∧ after.node? loc = some (.file new mode)
  others : ∀ place, place ≠ loc → after.node? place = before.node? place
  names : ∀ place, (after.children place).map Prod.fst = (before.children place).map Prod.fst
  home : after.home = before.home

theorem Disk.WellFormed.rewritten {d : Disk} (wf : d.WellFormed) {loc : Location} {old : Bytes}
    {mode : Nat} (hfile : d.node? loc = some (.file old mode)) (new : Bytes) :
    d.Rewritten (d.set loc (.file new mode)) loc old new := by
  have hne := Disk.ne_nil_of_file hfile
  have houtline := Disk.outline_set_file wf hfile new
  refine ⟨⟨mode, hfile, ?_⟩, fun place hplace => ?_, fun place => ?_, ?_⟩
  · rw [Disk.node?_set hne, if_pos rfl]
  · rw [Disk.node?_set hne, if_neg hplace]
  · rw [← Disk.map_fst_children_outline, houtline, Disk.map_fst_children_outline]
  · rw [← Disk.outline_home, houtline, Disk.outline_home]

theorem processFile_spec [Clock] [Device] {d : Disk} (wf : d.WellFormed) (settings : Settings) (write : Bool)
    (path : Path) :
    (processFile d settings write path).value =
        judge settings write path (d.readFile path) (d.admission path) ∧
      ((processFile d settings write path).value.persisted = false ∧
          (processFile d settings write path).disk = d ∨
        write = true ∧ (processFile d settings write path).value.isSuccess ∧
          (processFile d settings write path).value.persisted = true ∧
          ∃ loc mode old new, Rewrites d settings path loc mode old new ∧
            (processFile d settings write path).disk = d.set loc (.file new mode)) := by
  rw [processFile, judge]
  cases hlang : path.language? with
  | none => exact ⟨rfl, .inl ⟨rfl, rfl⟩⟩
  | some lang =>
    dsimp only
    rw [stripStored]
    cases hreadFile : d.readFile path with
    | error fault => exact ⟨rfl, .inl ⟨rfl, rfl⟩⟩
    | ok input =>
      have hread := Disk.read_of_readFile hreadFile
      dsimp only
      cases hstrip : stripFile lang settings.stripOptions path input with
      | error failure => exact ⟨rfl, .inl ⟨rfl, rfl⟩⟩
      | ok o =>
        by_cases hstay : (!write || input == o.output) = true
        · simp only [apply, hstay, if_true]
          exact ⟨rfl, .inl ⟨rfl, rfl⟩⟩
        · obtain ⟨hwrite, hchanged⟩ : write = true ∧ input ≠ o.output := by simpa using hstay
          obtain ⟨loc, mode, hresolve, hfile⟩ := Disk.read_eq_ok.1 hread
          simp only [apply, hstay, writeFile, Bool.false_eq_true, if_false]
          obtain ⟨fault, hadmission, hreplace⟩ | ⟨hadmission, hreplace⟩ :=
            Disk.replace_file wf (Disk.reach_of_resolve hresolve) hfile o.output
          · rw [hadmission, hreplace]
            exact ⟨rfl, .inl ⟨rfl, rfl⟩⟩
          · rw [hadmission, hreplace]
            refine ⟨rfl, .inr ⟨hwrite, rfl, rfl, loc, mode, input, o.output,
              ⟨hresolve, hfile, ?_, hchanged⟩, rfl⟩⟩
            rw [strippedContent?, hlang, hread, Strip.stripFile_eq_ok hstrip]

theorem path_judge [Clock] (settings : Settings) (write : Bool) (path : Path)
    (content : Except IoFault Bytes) (admission : Except IoFault Unit) :
    (judge settings write path content admission).path = path := by
  rw [judge]
  repeat' split
  all_goals rfl

/-- A result that is no failure tells that the file was read and stripped, and whether its content
was replaced. -/
theorem judge_cases [Clock] (settings : Settings) (write : Bool) (path : Path)
    (content : Except IoFault Bytes) (admission : Except IoFault Unit) :
    (judge settings write path content admission).isError ∨
      (judge settings write path content admission).isSuccess ∧
        ∃ lang input, path.language? = some lang ∧ content = .ok input ∧
          (judge settings write path content admission).persisted =
            (write && input != (strip lang settings.stripOptions input).output) := by
  rw [judge]
  split
  · exact .inl rfl
  · next lang hlang =>
    split
    · exact .inl rfl
    · next input =>
      split
      · exact .inl rfl
      · next o hstrip =>
        obtain rfl := Strip.stripFile_eq_ok hstrip
        split_ifs with hstay
        · refine .inr ⟨rfl, lang, input, hlang, rfl, ?_⟩
          have hno : (write && input != (strip lang settings.stripOptions input).output) = false := by
            simpa [or_iff_not_imp_left] using hstay
          rw [hno]
          rfl
        · split
          · exact .inl rfl
          · refine .inr ⟨rfl, lang, input, hlang, rfl, ?_⟩
            have hyes : (write && input != (strip lang settings.stripOptions input).output) = true := by
              simpa using hstay
            rw [hyes]
            rfl

/-- A success tells what was read and what it was stripped to, and that is what a run with writing
leaves in the file. -/
theorem processFile_success [Clock] [Device] {d : Disk} (wf : d.WellFormed) {settings : Settings} {write : Bool}
    {path : Path} (h : (processFile d settings write path).value.isSuccess) :
    ∃ input output, d.read path = .ok input ∧ strippedContent? d settings path = some output ∧
      (processFile d settings write path).value.persisted = (write && input != output) ∧
      (write = true → (processFile d settings write path).disk.read path = .ok output) := by
  obtain ⟨hvalue, hdisk⟩ := processFile_spec wf settings write path
  rcases judge_cases settings write path (d.readFile path) (d.admission path) with
    herror | ⟨-, lang, input, hlang, hreadFile, hpersisted⟩
  · rw [← hvalue] at herror
    simp [FileResult.not_isError_of_isSuccess h] at herror
  have hread := Disk.read_of_readFile hreadFile
  rw [← hvalue] at hpersisted
  have hstripped : strippedContent? d settings path =
      some (strip lang settings.stripOptions input).output :=
    strippedContent?_eq_some.2 ⟨lang, input, hlang, hread, rfl⟩
  refine ⟨input, _, hread, hstripped, hpersisted, fun hwrite => ?_⟩
  rcases hdisk with ⟨hkept, hsame⟩ | ⟨-, -, -, loc, mode, old, new, hrewrites, hset⟩
  · rw [hkept, hwrite] at hpersisted
    have hequal : input = (strip lang settings.stripOptions input).output := by
      simpa using hpersisted.symm
    rw [hsame, hread, ← hequal]
  · obtain rfl : (strip lang settings.stripOptions input).output = new :=
      Option.some.inj (hstripped.symm.trans hrewrites.stripped)
    rw [hset]
    exact hrewrites.read_set wf

/-! ## Disks of one outline -/

theorem processFile_outline [Clock] [Device] {d : Disk} (wf : d.WellFormed) (settings : Settings) (write : Bool)
    (path : Path) : (processFile d settings write path).disk.outline = d.outline := by
  obtain ⟨-, ⟨-, hdisk⟩ | ⟨-, -, -, loc, mode, old, new, hrewrites, hdisk⟩⟩ :=
    processFile_spec wf settings write path
  · rw [hdisk]
  · rw [hdisk, Disk.outline_set_file wf hrewrites.file]

/-- A change is at the location that the path leads to. -/
theorem resolve_of_processFile_ne [Clock] [Device] {d : Disk} (wf : d.WellFormed)
    {settings : Settings} {write : Bool} {path : Path} {loc : Location}
    (h : (processFile d settings write path).disk.node? loc ≠ d.node? loc) :
    d.resolve true path = .ok loc := by
  obtain ⟨-, ⟨-, hdisk⟩ | ⟨-, -, -, place, mode, old, new, hrewrites, hdisk⟩⟩ :=
    processFile_spec wf settings write path
  · simp [hdisk] at h
  · by_cases hloc : loc = place
    · rw [hloc, hrewrites.resolves]
    · rw [hdisk] at h
      exact absurd ((wf.rewritten hrewrites.file new).others loc hloc) h

/-- An operation on the disk `d` and one on the disk `d'` that have one answer and change the same
places to the same. -/
structure Effect.Alike {α : Type} (d d' : Disk) (e e' : Effect α) : Prop where
  value : e'.value = e.value
  node : ∀ loc, e'.disk.node? loc =
    if e.disk.node? loc = d.node? loc then d'.node? loc else e.disk.node? loc

theorem Effect.Alike.idle {α : Type} (d d' : Disk) (value : α) (log log' : List LogLine) :
    Effect.Alike d d' ⟨value, d, log⟩ ⟨value, d', log'⟩ :=
  ⟨rfl, fun _ => (if_pos rfl).symm⟩

/-- On a disk of the same outline, from the same content, a file is processed alike. -/
theorem processFile_congr [Clock] [Device] {d d' : Disk} (wf : d.WellFormed) (houtline : d'.outline = d.outline)
    {path : Path} (hread : d'.read path = d.read path) (settings : Settings) (write : Bool) :
    Effect.Alike d d' (processFile d settings write path) (processFile d' settings write path) := by
  have wf' := wf.of_outline houtline
  have hadmission : d'.admission path = d.admission path := by
    rw [← Disk.admission_outline, houtline, Disk.admission_outline]
  have hreadFile : d'.readFile path = d.readFile path := by
    rw [Disk.readFile, Disk.readFile, hread]
  obtain ⟨hvalue, hdisk⟩ := processFile_spec wf settings write path
  obtain ⟨hvalue', hdisk'⟩ := processFile_spec wf' settings write path
  have hsame : (processFile d' settings write path).value =
      (processFile d settings write path).value := by
    rw [hvalue, hvalue', hreadFile, hadmission]
  refine ⟨hsame, fun place => ?_⟩
  rw [hsame] at hdisk'
  rcases hdisk with ⟨hkept, hdisk⟩ | ⟨-, -, hwritten, loc, mode, old, new, hrewrites, hdisk⟩
  · rcases hdisk' with ⟨-, hdisk'⟩ | ⟨-, -, hwritten, -⟩
    · rw [hdisk, hdisk', if_pos rfl]
    · simp [hkept] at hwritten
  · rcases hdisk' with ⟨hkept, -⟩ | ⟨-, -, -, loc', mode', old', new', hrewrites', hdisk'⟩
    · simp [hkept] at hwritten
    · have hloc : loc' = loc := by
        have hresolve := hrewrites'.resolves
        rw [← Disk.resolve_outline, houtline, Disk.resolve_outline, hrewrites.resolves] at hresolve
        simpa using hresolve.symm
      have hnew : new' = new := by
        have hstripped := hrewrites'.stripped
        rw [strippedContent?, hread] at hstripped
        exact Option.some.inj (hstripped.symm.trans hrewrites.stripped)
      subst hloc hnew
      have hmode : mode' = mode := by
        have hnode := congrArg (Disk.node? · loc') houtline
        simpa [hrewrites.file, hrewrites'.file, Node.outline] using hnode
      subst hmode
      have hne := Disk.ne_nil_of_file hrewrites.file
      rw [hdisk, hdisk', Disk.node?_set hne, Disk.node?_set hne]
      by_cases hplace : place = loc'
      · subst hplace
        simp [hrewrites.file, hrewrites.changed.symm]
      · simp [hplace]

/-! ## The frame -/

/-- Processing a file changes at most the content of the file that its path leads to. Without
writing, and when the result is an error, nothing is changed. -/
theorem processFile_frame [Clock] [Device] {d : Disk} (wf : d.WellFormed) (settings : Settings) (write : Bool)
    (path : Path) :
    (write = false ∨ (processFile d settings write path).value.isError →
        (processFile d settings write path).disk = d) ∧
      (write = true → (processFile d settings write path).value.isError = false →
        ∃ loc lang input, d.resolve true path = .ok loc ∧ path.language? = some lang ∧
          d.Rewritten (processFile d settings write path).disk loc input
            (strip lang settings.stripOptions input).output) ∧
      ((processFile d settings write path).value.persisted = true ↔
        (processFile d settings write path).disk ≠ d) := by
  obtain ⟨hvalue, ⟨hkept, hdisk⟩ | ⟨hwrite, hsuccess, hwritten, loc, mode, old, new, hrewrites, hdisk⟩⟩ :=
    processFile_spec wf settings write path
  · refine ⟨fun _ => hdisk, fun hwrite herror => ?_, by simp [hkept, hdisk]⟩
    rw [hdisk]
    rw [hvalue] at herror hkept
    rcases judge_cases settings write path (d.readFile path) (d.admission path) with
      hfailed | ⟨-, lang, input, hlang, hreadFile, hpersisted⟩
    · simp [herror] at hfailed
    · have hread := Disk.read_of_readFile hreadFile
      have hsame : input = (strip lang settings.stripOptions input).output := by
        rw [hkept, hwrite] at hpersisted
        simpa using hpersisted.symm
      obtain ⟨loc, mode, hresolve, hfile⟩ := Disk.read_eq_ok.1 hread
      refine ⟨loc, lang, input, hresolve, hlang, ?_⟩
      rw [← hsame]
      exact ⟨⟨mode, hfile, hfile⟩, fun _ _ => rfl, fun _ => rfl, rfl⟩
  · have hrewritten := wf.rewritten hrewrites.file new
    rw [← hdisk] at hrewritten
    refine ⟨fun hno => ?_, fun _ _ => ?_, fun _ hsame => ?_, fun _ => hwritten⟩
    · rcases hno with hno | hno
      · simp [hno] at hwrite
      · simp [FileResult.not_isError_of_isSuccess hsuccess] at hno
    · obtain ⟨lang, input, hlang, hread, rfl⟩ := strippedContent?_eq_some.1 hrewrites.stripped
      obtain rfl : old = input := by simpa [hrewrites.read] using hread
      exact ⟨loc, lang, old, hrewrites.resolves, hlang, hrewritten⟩
    · obtain ⟨_, hbefore, hafter⟩ := hrewritten.file
      rw [hsame, hbefore] at hafter
      exact hrewrites.changed (by simpa using (hafter : _ = _))

/-- A source with a comment, and a link to it, in the working directory. -/
def linkedSource : Disk :=
  let work := Bytes.ofText "w"
  { entries :=
      [([work], .directory),
        ([work, Bytes.ofText "a.ts"], .file (Bytes.ofText "x // y\n") 0o644),
        ([work, Bytes.ofText "b.ts"], .link (Path.ofText "a.ts"))]
    home := [work] }

/-- The file behind the link is stripped, and stays as it is without writing. -/
theorem processFile_frame_link :
    (∃ loc lang input, linkedSource.resolve true (Path.ofText "b.ts") = .ok loc ∧
        (Path.ofText "b.ts").language? = some lang ∧
        linkedSource.Rewritten
          (processFile linkedSource { jobs := 1 } true (Path.ofText "b.ts")).disk loc input
          (strip lang (Settings.stripOptions { jobs := 1 }) input).output) ∧
      (processFile linkedSource { jobs := 1 } true (Path.ofText "b.ts")).value.persisted = true ∧
      (processFile linkedSource { jobs := 1 } true (Path.ofText "b.ts")).disk.read
        (Path.ofText "a.ts") = .ok (Bytes.ofText "x \n") ∧
      (processFile linkedSource { jobs := 1 } false (Path.ofText "b.ts")).disk = linkedSource := by
  have hwf : linkedSource.WellFormed := of_decide_eq_true (by cbv)
  have hread : (processFile linkedSource { jobs := 1 } true (Path.ofText "b.ts")).disk.read
      (Path.ofText "a.ts") = .ok (Bytes.ofText "x \n") := by cbv
  have hchanged : (processFile linkedSource { jobs := 1 } true (Path.ofText "b.ts")).disk ≠
      linkedSource := by
    intro hsame
    rw [hsame] at hread
    exact absurd hread (of_decide_eq_true (by cbv))
  have hframe := processFile_frame hwf { jobs := 1 } true (Path.ofText "b.ts")
  exact ⟨hframe.2.1 rfl (by cbv), hframe.2.2.2 hchanged, hread,
    (processFile_frame hwf { jobs := 1 } false (Path.ofText "b.ts")).1 (.inl rfl)⟩

end Uncomment
