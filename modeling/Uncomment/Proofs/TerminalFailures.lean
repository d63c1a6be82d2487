import Mathlib
import Uncomment.Standard
import Uncomment.Proofs.Stages

/-! Failures that end a batch. They all come before the first file is written, and an exclude
pattern that is no glob is always one of them. -/
namespace Uncomment

/-! ## Patterns that cannot be read -/

namespace Glob.Reader

theorem step_of_isBlank (options : GlobOptions) (r : Reader) {c : Char} (h : Text.isBlank c)
    (rest : List Char) : r.step options c rest = .ok (r.push (.literal c) c, 0) := by
  have hplain : ∀ special, Text.isBlank special = false → c ≠ special := by
    rintro special hno rfl
    simp [h] at hno
  rw [step] <;> exact hplain _ (by decide)

theorem read_of_isBlank (options : GlobOptions) {r : Reader} (hr : r.groups = [])
    (hcurrent : ∀ t ∈ r.current, ∃ c, t = .literal c) {cs : List Char}
    (h : ∀ c ∈ cs, Text.isBlank c) :
    ∃ tokens, r.read options cs = .ok tokens ∧ ∀ t ∈ tokens, ∃ c, t = .literal c := by
  induction cs generalizing r with
  | nil =>
    exact ⟨r.current.reverse, by simp [read, finish, inGroup, hr],
      fun t ht => hcurrent t (List.mem_reverse.1 ht)⟩
  | cons c cs ih =>
    rw [read, step_of_isBlank options r (h c List.mem_cons_self)]
    refine ih hr (fun t ht => ?_) fun b hb => h b (List.mem_cons_of_mem _ hb)
    rcases List.mem_cons.1 ht with rfl | ht
    · exact ⟨c, rfl⟩
    · exact hcurrent t ht

end Glob.Reader

theorem Text.isBlank_of_trim {s : String} (h : (trim s).isEmpty) : ∀ c ∈ s.toList, isBlank c := by
  have hnil : trimEndChars (s.toList.dropWhile isBlank) = [] := by simpa [trim] using h
  simp only [trimEndChars, List.reverse_eq_nil_iff, List.dropWhile_eq_nil_iff, List.mem_reverse] at hnil
  intro c hc
  rw [← List.takeWhile_append_dropWhile (p := isBlank) (l := s.toList)] at hc
  rcases List.mem_append.1 hc with hc | hc
  · exact List.mem_takeWhile_imp hc
  · exact hnil c hc

namespace Glob

/-- Literals are one layer at most. -/
theorem depth_of_literals (options : GlobOptions) {tokens : List GlobToken}
    (h : ∀ t ∈ tokens, ∃ c, t = .literal c) : depth ⟨options, tokens⟩ = 1 := by
  have hzero : ∀ n ∈ tokensDepths options tokens, n = 0 := by
    induction tokens with
    | nil => simp [tokensDepths]
    | cons t tokens ih =>
      obtain ⟨c, rfl⟩ := h t List.mem_cons_self
      intro n hn
      rw [tokensDepths, tokenDepths] at hn
      rcases List.mem_append.1 hn with hn | hn
      · obtain ⟨b, -, rfl⟩ := List.mem_map.1 hn
        rfl
      · exact ih (fun u hu => h u (List.mem_cons_of_mem _ hu)) n hn
  rw [depth, List.eq_replicate_of_mem hzero]
  generalize (tokensDepths options tokens).length = n
  induction n with
  | zero => rfl
  | succ n ih => exact ih

/-- A blank pattern is a glob, so that skipping it hides no fault. -/
theorem compile_of_isBlankPattern (slashIsLiteral : Bool) {text : String}
    (h : Exclusion.isBlankPattern text) : ∃ accepts, compile slashIsLiteral text = .ok accepts := by
  obtain ⟨tokens, htokens, hliterals⟩ := Reader.read_of_isBlank ⟨slashIsLiteral, false⟩ (r := {}) rfl
    (by simp) (Text.isBlank_of_trim h)
  have hparse : parse ⟨slashIsLiteral, false⟩ text = .ok ⟨⟨slashIsLiteral, false⟩, tokens⟩ := by
    rw [parse, htokens]
    rfl
  refine ⟨accepts ⟨⟨slashIsLiteral, false⟩, tokens⟩, ?_⟩
  rw [compile, hparse]
  simp only [isTooDeep, depth_of_literals _ hliterals]
  rfl

theorem compile_of_fault {slashIsLiteral : Bool} {text : String} {fault : GlobFault}
    (h : parse ⟨slashIsLiteral, false⟩ text = .error fault) :
    compile slashIsLiteral text = .error (faultText text fault) := by
  rw [compile, h]

end Glob

namespace Exclusion
variable [Globs]

theorem add_of_refused {pattern : String} (hblank : isBlankPattern pattern = false)
    {details : String} (h : Globs.compile false pattern = .error details) (e : Exclusion) :
    e.add pattern = .error (.invalidPattern pattern details) := by
  simp [add, hblank, h]

theorem kind_of_add {e : Exclusion} {pattern : String} {failure : Failure}
    (h : e.add pattern = .error failure) : failure.kind = .invalidConfiguration := by
  rw [add] at h
  cases hcompile : Globs.compile false pattern with
  | error details =>
    simp only [hcompile] at h
    split_ifs at h
    obtain rfl := Except.error.inj h
    rfl
  | ok accepts =>
    simp only [hcompile] at h
    split_ifs at h

theorem foldlM_of_refused {patterns : List String} {pattern : String} (hmem : pattern ∈ patterns)
    (hblank : isBlankPattern pattern = false) {details : String}
    (h : Globs.compile false pattern = .error details) (e : Exclusion) :
    ∃ failure, patterns.foldlM add e = .error failure ∧ failure.kind = .invalidConfiguration := by
  induction patterns generalizing e with
  | nil => simp at hmem
  | cons first rest ih =>
    rw [List.foldlM_cons]
    cases hfirst : e.add first with
    | error failure => exact ⟨failure, rfl, kind_of_add hfirst⟩
    | ok next =>
      rcases List.mem_cons.1 hmem with rfl | hrest
      · simp [add_of_refused hblank h] at hfirst
      · exact ih hrest next

theorem ofPatterns_of_refused {patterns : List String} {pattern : String} (hmem : pattern ∈ patterns)
    (hblank : isBlankPattern pattern = false) {details : String}
    (h : Globs.compile false pattern = .error details) :
    ∃ failure, ofPatterns patterns = .error failure ∧ failure.kind = .invalidConfiguration :=
  foldlM_of_refused hmem hblank h {}

end Exclusion

/-! ## Failures of a batch -/

theorem GlobTarget.not_isPattern_of_stat {d : Disk} {root : Path} {node : Node}
    (h : d.stat root = .ok node) : isPattern d root = false := by
  simp [isPattern, Disk.pathExists, h, Except.isOk, Except.toBool]

section
variable [Host]

/-- A batch that fails leaves the disk as it is: its tasks are refused together, and so the first
of them ends the run. -/
theorem processBatch_of_error {d : Disk} {settings : Settings} {recursive write : Bool} {root : Path}
    {failure : Failure} (h : (processBatch d settings recursive write root).value = .error failure) :
    (processBatch d settings recursive write root).disk = d := by
  obtain ⟨_, -, -, hdisk⟩ | ⟨s, hstart, hvalue, hdisk⟩ :=
    processBatch_cases d settings recursive write root
  · exact hdisk
  · rw [hdisk]
    rw [hvalue] at h
    obtain ⟨hne, fault, hrefused⟩ | hadmitted := Stage.refused_or_admitted hstart
    · exact (Task.performAll_of_refusal hne hrefused d write).2
    · obtain ⟨results, hresults⟩ := Task.performAll_of_no_refusal hadmitted d write
      simp [hresults, Except.map] at h

theorem kind_of_startPool {settings : Settings} {failure : Failure}
    (h : startPool settings = .error failure) : failure.kind = .invalidConfiguration := by
  rw [startPool] at h
  cases hpool : Host.pool settings.jobs with
  | ok => simp [hpool, Except.mapError] at h
  | error details =>
    obtain rfl : Failure.threadPool details = failure := by simpa [hpool, Except.mapError] using h
    rfl

/-- A root that is there is not processed with an exclude pattern that is no glob. -/
theorem processBatch_of_refused {d : Disk} {settings : Settings} {root : Path} {node : Node}
    (hroot : d.stat root = .ok node) {pattern : String} (hmem : pattern ∈ settings.walk.exclude)
    (hblank : Exclusion.isBlankPattern pattern = false) {details : String}
    (h : Globs.compile false pattern = .error details) (recursive write : Bool) :
    ∃ failure, (processBatch d settings recursive write root).value = .error failure ∧
      failure.kind = .invalidConfiguration := by
  obtain ⟨failure, hfailure, hkind⟩ := Exclusion.ofPatterns_of_refused hmem hblank h
  have htarget : ∃ failure, ((processTarget d settings write root).andThen fun result d =>
      summarize (fun _ => []) [result] d).value = .error failure ∧
      failure.kind = .invalidConfiguration := by
    refine ⟨failure, ?_, hkind⟩
    rw [processTarget, hfailure]
    rfl
  rw [processBatch, GlobTarget.not_isPattern_of_stat hroot, hroot]
  cases node with
  | directory =>
    dsimp only
    cases hpool : startPool settings with
    | error refused =>
      rw [processDirectory, hpool]
      exact ⟨refused, rfl, kind_of_startPool hpool⟩
    | ok =>
      have hplan : Walk.Plan.ofOptions { settings.walk with recursive } root = .error failure := by
        rw [Walk.Plan.ofOptions, hfailure]
        rfl
      obtain ⟨_, hsame, hvalue, -⟩ | ⟨plan, hok, -⟩ :=
        processDirectory_cases d settings recursive write root hpool
      · obtain rfl := Except.error.inj (hplan.symm.trans hsame)
        exact ⟨_, hvalue, hkind⟩
      · cases hplan.symm.trans hok
  | file content mode => exact htarget
  | link target => exact htarget

/-- A terminal failure touches no file. Where blank texts are globs, an exclude pattern that is none
always is such a failure on a root that is there. -/
theorem processBatch_terminal (d : Disk) (settings : Settings) (recursive write : Bool) (root : Path) :
    (∀ failure, (processBatch d settings recursive write root).value = .error failure →
        (processBatch d settings recursive write root).disk = d) ∧
      ((∀ text, Exclusion.isBlankPattern text → ∃ accepts, Globs.compile false text = .ok accepts) →
        ∀ node, d.stat root = .ok node → ∀ pattern ∈ settings.walk.exclude, ∀ details,
          Globs.compile false pattern = .error details →
          ∃ failure, (processBatch d settings recursive write root).value = .error failure ∧
            failure.kind = .invalidConfiguration) := by
  refine ⟨fun _ h => processBatch_of_error h, fun hblanks node hroot pattern hmem details h => ?_⟩
  refine processBatch_of_refused hroot hmem ?_ h recursive write
  by_contra hblank
  obtain ⟨accepts, haccepts⟩ := hblanks pattern (by simpa using hblank)
  cases h.symm.trans haccepts

end

theorem processBatch_terminal_bracket :
    ∃ failure, (processBatch linkedSource { jobs := 1, walk := { exclude := ["["] } } true true
        Path.here).value = .error failure ∧
      failure.kind = .invalidConfiguration ∧
      (processBatch linkedSource { jobs := 1, walk := { exclude := ["["] } } true true
        Path.here).disk = linkedSource := by
  obtain ⟨hdisk, hinvalid⟩ := processBatch_terminal linkedSource
    { jobs := 1, walk := { exclude := ["["] } } true true Path.here
  obtain ⟨failure, hvalue, hkind⟩ := hinvalid (fun _ => Glob.compile_of_isBlankPattern false)
    .directory (by cbv) "[" (by simp) _
    (Glob.compile_of_fault (show Glob.parse ⟨false, false⟩ "[" = .error .unclosedClass by cbv))
  exact ⟨failure, hvalue, hkind, hdisk failure hvalue⟩

end Uncomment
