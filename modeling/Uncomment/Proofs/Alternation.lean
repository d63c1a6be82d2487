import Mathlib
import Uncomment.Proofs.Expansion

/-! What a pattern with a group of alternatives expands to, beside the patterns with one alternative in the
place of the group. The search for the whole pattern starts in front of the group and that for a choice may
start further down, so each file is followed from the one base to the other. -/
namespace Uncomment
open Ascii

/-! ## Ways from a base further down -/

/-- A file below a location is found behind the names that lead to it. -/
theorem Disk.WellFormed.reach_joinAll {d : Disk} (wf : d.WellFormed) {p : Path} {loc : Location}
    (h : d.reach true p = .ok loc) {names way : List Bytes} {content : Bytes} {mode : Nat}
    (hnode : d.node? (loc ++ (names ++ way)) = some (.file content mode)) :
    d.reach true (p.joinAll names) = .ok (loc ++ names) := by
  induction names generalizing p loc with
  | nil => simpa [Path.joinAll] using h
  | cons name names ih =>
    have hassoc : ∀ tail, loc ++ name :: tail = loc ++ [name] ++ tail := by simp
    rw [List.cons_append, hassoc] at hnode
    have hname : IsName name := wf.isName hnode name (by simp)
    have hdir : d.node? loc = some .directory := wf.rooted hnode loc name ⟨names ++ way, by simp⟩
    obtain ⟨node, hthere, hplain⟩ : ∃ node, d.node? (loc ++ [name]) = some node ∧
        ∀ target, node ≠ .link target := by
      cases hrest : names ++ way with
      | nil => exact ⟨_, by rwa [hrest, List.append_nil] at hnode, by simp⟩
      | cons next rest => exact ⟨.directory, wf.rooted hnode _ next ⟨rest, by simp [hrest]⟩, by simp⟩
    rw [hassoc]
    exact ih (Disk.reach_join h hdir hname hthere hplain) hnode

namespace GlobTarget

section Ways
variable {d : Disk} {hidden : Bool}

theorem Finds.beyond {directory directory' : Path} {loc : Location} {names way : List Bytes}
    (hshort : ∀ front, front <+: way → (directory'.joinAll front).bytes.length ≤
      (directory.joinAll (names ++ front)).bytes.length)
    (h : Finds d hidden directory loc (names ++ way)) : Finds d hidden directory' (loc ++ names) way := by
  obtain ⟨content, mode, hnode⟩ := h.regular
  refine ⟨⟨content, mode, by simpa using hnode⟩, fun front name back node hway hnode => ?_,
    fun front name back hway => (hshort front ⟨name :: back, hway.symm⟩).trans_lt ?_⟩
  · exact h.passes (names ++ front) name back node (by simp [hway]) (by simpa using hnode)
  · exact h.opens (names ++ front) name back (by simp [hway])

/-- A base that is not standard input and that can be looked up. -/
structure IsPlace (base : Path) : Prop where
  not_input : Path.same base Walk.standardInput = false
  short : base.bytes.length < Disk.pathLimit

/-- A way from a base is also one from a directory on it. -/
theorem IsWay.beyond (wf : d.WellFormed) {base : Path} {names way : List Bytes} (hne : names ≠ [])
    (hplace : IsPlace (base.joinAll names)) (h : IsWay d hidden base (names ++ way)) :
    IsWay d hidden (base.joinAll names) way := by
  have hnames : ∀ name ∈ names, IsName name := fun name hname => h.isName wf name (by simp [hname])
  obtain ⟨-, loc, hresolve, hfinds⟩ := id h
  obtain ⟨content, mode, hnode⟩ := hfinds.regular
  have hreach := wf.reach_joinAll (Disk.reach_of_resolve hresolve) hnode
  have hnonempty : (base.joinAll names).isEmpty = false := by
    rw [← Bool.not_eq_true, ← Path.components_eq_nil, components_way hnames]
    simp [hne]
  have hstart : start (base.joinAll names) = base.joinAll names :=
    if_neg (by rw [hnonempty]; exact Bool.false_ne_true)
  have happend : ∀ (p : Path) (front : List Bytes), (p.joinAll names).joinAll front =
      p.joinAll (names ++ front) := fun p front => List.foldl_append.symm
  rw [IsWay, hstart, Disk.resolve_of_reach hplace.short]
  by_cases hempty : base.isEmpty = true
  · obtain rfl : base = ⟨[]⟩ := congrArg Path.mk (by simpa [Path.isEmpty] using hempty)
    have hhere : start ⟨[]⟩ = Path.here := rfl
    rw [hhere] at hreach hfinds
    refine ⟨hplace.not_input, loc ++ names, ?_, hfinds.beyond fun front hfront => ?_⟩
    · rw [nil_joinAll hne hnames]
      exact Disk.reach_of_here hne hnames hreach
    · have hboth : ∀ name ∈ names ++ front, IsName name := fun name hname => h.isName wf name
        ((List.prefix_append_right_inj names).2 hfront |>.subset hname)
      have hne' : names ++ front ≠ [] := List.append_ne_nil_of_left_ne_nil hne front
      rw [happend, nil_joinAll hne' hboth, Path.here_joinAll hne' hboth]
      exact (List.suffix_append [dot, slash] _).length_le
  · have hbase : start base = base := if_neg hempty
    rw [hbase] at hreach hfinds
    exact ⟨hplace.not_input, loc ++ names, hreach, hfinds.beyond fun front _ => by rw [happend]⟩

end Ways

end GlobTarget

/-! ## Patterns with a group -/

theorem Bytes.ofText_append (s t : String) : Bytes.ofText (s ++ t) = Bytes.ofText s ++ Bytes.ofText t := by
  simp [Bytes.ofText]

/-- Texts put together with commas. -/
theorem Bytes.ofText_intercalate (texts : List String) :
    Bytes.ofText (",".intercalate texts) = Bytes.join comma (texts.map Bytes.ofText) := by
  have hcomma : String.utf8EncodeChar ',' = [comma] := by decide
  rw [Bytes.ofText, String.toList_intercalate]
  induction texts with
  | nil => rfl
  | cons s texts ih =>
    cases texts with
    | nil => simp [Bytes.join, Bytes.ofText]
    | cons t more =>
      rw [Bytes.join] at ih ⊢
      simp only [List.map_cons, List.intercalate_cons_cons, List.flatMap_append] at ih ⊢
      rw [ih]
      simp [Bytes.ofText, hcomma]

theorem Path.display_ofText (s : String) : (Path.ofText s).display = s := by
  rw [Path.display, Path.ofText, ← String.ofList_toList (s := s), Utf8.ofText_ofList, Utf8.lossy_encode]

namespace Glob

/-- A pattern with a group of alternatives. -/
structure Group where
  front : String
  choices : List String
  back : String

namespace Group
variable (g : Group)

def text : String := g.front ++ "\x7b" ++ ",".intercalate g.choices ++ "\x7d" ++ g.back

/-- The text with an alternative in the place of the group. -/
def choice (p : String) : String := g.front ++ p ++ g.back

def pattern : Path := .ofText g.text

/-- The pattern with an alternative in the place of the group. -/
def chosen (p : String) : Path := .ofText (g.choice p)

theorem bytes_pattern : g.pattern.bytes = Bytes.ofText g.front ++
    openBrace :: (Bytes.join comma (g.choices.map Bytes.ofText) ++ closeBrace :: Bytes.ofText g.back) := by
  have hopen : Bytes.ofText "\x7b" = [openBrace] := by decide
  have hclose : Bytes.ofText "\x7d" = [closeBrace] := by decide
  rw [pattern, Path.ofText, text]
  simp [Bytes.ofText_append, Bytes.ofText_intercalate, hopen, hclose]

theorem bytes_chosen (p : String) :
    (g.chosen p).bytes = Bytes.ofText g.front ++ Bytes.ofText (p ++ g.back) := by
  simp [chosen, Path.ofText, choice, Bytes.ofText_append]

end Group
end Glob

/-- The library compiles a pattern with a group and its choices as it documents them, and the pattern accepts
what some of its choices accept. -/
structure Globs.ReadsGroup [Globs] (crosses : Bool) (g : Glob.Group) (accepts : Bytes → Bool)
    (chosen : String → Bytes → Bool) : Prop where
  whole : Globs.Reads crosses g.text accepts
  choice : ∀ p ∈ g.choices, Globs.Reads crosses (g.choice p) (chosen p)
  union : ∀ s, accepts s = true ↔ ∃ p ∈ g.choices, chosen p s = true

namespace GlobTarget
open Glob (Group)

/-- The base of the search for a pattern with a group stands in front of the group, and where the search for
a choice starts further down, that base is one that its text names. Either classes stop at slashes, or all the
searches go equally deep. -/
structure Covered (crosses : Bool) (g : Group) : Prop where
  in_front : ∀ c ∈ (Search.ofPattern g.pattern).base.components, openBrace ∉ c.bytes
  literal : ∀ p ∈ g.choices,
    (Search.ofPattern (g.chosen p)).base ≠ (Search.ofPattern g.pattern).base →
      IsPlace (Search.ofPattern (g.chosen p)).base ∧
        ∀ c ∈ (Search.ofPattern (g.chosen p)).base.components, ∀ b ∈ c.bytes, Glob.isMark b = false
  deep : crosses = false ∨
    ∀ p ∈ g.choices, (Search.ofPattern (g.chosen p)).span = (Search.ofPattern g.pattern).span

section Bases
variable {g : Group}

/-- The base of a choice is the base of the whole or further down. -/
theorem base_prefix_chosen
    (h : ∀ c ∈ (Search.ofPattern g.pattern).base.components, openBrace ∉ c.bytes) (p : String) :
    (Search.ofPattern g.pattern).base.components <+: (Search.ofPattern (g.chosen p)).base.components := by
  rw [Search.components_base] at h
  rw [Search.components_base, Search.components_base]
  have hprefix : g.pattern.components.takeWhile isPlain <+: (g.chosen p).components := by
    have hpattern : g.pattern = ⟨_⟩ := congrArg Path.mk g.bytes_pattern
    have hchosen : g.chosen p = ⟨_⟩ := congrArg Path.mk (g.bytes_chosen p)
    have hmark : ∀ c ∈ g.pattern.components.takeWhile isPlain, ∀ b ∈ c.bytes, (b == openBrace) = false :=
      fun c hc b hb => beq_false_of_ne fun heq => h c hc (heq ▸ hb)
    rw [takeWhile_isPlain hmark, hpattern, hchosen]
    exact Path.takeWhile_components_prefix ⟨by decide, by decide⟩ _ (by decide) _ _
  obtain ⟨rest, hrest⟩ := hprefix
  rw [← hrest, List.takeWhile_append_of_pos fun c hc => List.mem_takeWhile_imp hc]
  exact List.prefix_append _ _

theorem base_eq_joinAll {pattern pattern' : Path} {names : List Bytes}
    (h : (Search.ofPattern pattern').base.components =
      (Search.ofPattern pattern).base.components ++ names.map Component.name) :
    (Search.ofPattern pattern').base = (Search.ofPattern pattern).base.joinAll names := by
  rw [Search.components_base, Search.components_base] at h
  have hfold : ∀ q : Path, (Search.ofPattern q).base =
      (q.components.takeWhile isPlain).foldl (fun p c => p.join ⟨c.bytes⟩) ⟨[]⟩ := fun q => rfl
  rw [hfold, hfold, h, List.foldl_append, List.foldl_map]
  rfl

end Bases

/-- Nothing that fits a pattern is beyond the depth of the search for it, where classes stop at slashes. -/
theorem length_le_span {text : String} {s : Bytes} (h : Glob.Fits false (Bytes.ofText text) s) :
    ∀ m, (Search.ofPattern (.ofText text)).span = some m → (Path.mk s).components.length ≤ m := by
  intro m hm
  obtain ⟨n, hn, rfl⟩ := Option.map_eq_some_iff.1 hm
  exact length_le_of_fits hn (by rwa [Path.display_ofText])

section Choices
variable {crosses : Bool} {g : Group} {p : String}

/-- What fits both the whole pattern and a choice is within the depths of both searches or of neither. -/
theorem Covered.span_iff (hg : Covered crosses g) (hp : p ∈ g.choices) {s : Bytes}
    (hwhole : Glob.Fits crosses (Bytes.ofText g.text) s)
    (hchoice : Glob.Fits crosses (Bytes.ofText (g.choice p)) s) :
    (∀ m, (Search.ofPattern g.pattern).span = some m → (Path.mk s).components.length ≤ m) ↔
      ∀ m, (Search.ofPattern (g.chosen p)).span = some m → (Path.mk s).components.length ≤ m := by
  rcases hg.deep with rfl | hspan
  · exact iff_of_true (length_le_span hwhole) (length_le_span hchoice)
  · rw [hspan p hp]

/-- A file that a choice accepts and that is reached from the base of the whole pattern is reached from the
base of the choice. -/
theorem Reaches.chosen {d : Disk} (wf : d.WellFormed) {hidden : Bool} (hg : Covered crosses g)
    (hp : p ∈ g.choices) {f : Path} (hfits : Glob.Fits crosses (Bytes.ofText (g.choice p)) f.bytes)
    (h : Reaches d hidden (Search.ofPattern g.pattern).base f) :
    Reaches d hidden (Search.ofPattern (g.chosen p)).base f := by
  by_cases hsame : (Search.ofPattern (g.chosen p)).base = (Search.ofPattern g.pattern).base
  · rwa [hsame]
  · obtain ⟨hplace, hmark⟩ := hg.literal p hp hsame
    obtain ⟨way, rfl, hway⟩ := h
    have hprefix := base_prefix_of_fits hmark hfits
    have hcomponents := @components_way (Search.ofPattern g.pattern).base way (hway.isName wf)
    rw [hcomponents] at hprefix
    obtain ⟨rest, hrest⟩ := base_prefix_chosen hg.in_front p
    rw [← hrest, List.prefix_append_right_inj] at hprefix
    obtain ⟨names, way, rfl, rfl⟩ : ∃ names back, way = names ++ back ∧ rest = names.map Component.name := by
      obtain ⟨tail, htail⟩ := hprefix
      obtain ⟨names, back, rfl, rfl, rfl⟩ := List.map_eq_append_iff.1 htail.symm
      exact ⟨names, back, rfl, rfl⟩
    have hbase := base_eq_joinAll hrest.symm
    have hne : names ≠ [] := by
      rintro rfl
      exact hsame hbase
    rw [hbase] at hplace ⊢
    exact ⟨way, List.foldl_append, hway.beyond wf hne hplace⟩

/-- What the search for a pattern with a group finds is what the searches for its choices find, as far as it
is reached from the base of the whole pattern. -/
theorem mem_matched_group [Globs] {d : Disk} (wf : d.WellFormed) {hidden : Bool} {accepts : Bytes → Bool}
    {chosen : String → Bytes → Bool} (hreads : Globs.ReadsGroup crosses g accepts chosen)
    (hg : Covered crosses g) {f : Path} :
    f ∈ matched d hidden g.pattern accepts ↔
      (∃ p ∈ g.choices, f ∈ matched d hidden (g.chosen p) (chosen p)) ∧
        Reaches d hidden (Search.ofPattern g.pattern).base f := by
  simp only [mem_matched wf]
  constructor
  · rintro ⟨⟨hreached, haccepts⟩, hspan⟩
    obtain ⟨p, hp, hchosen⟩ := (hreads.union _).1 haccepts
    have hfits := (hreads.choice p hp).fits _ hchosen
    exact ⟨⟨p, hp, ⟨hreached.chosen wf hg hp hfits, hchosen⟩,
      (hg.span_iff hp (hreads.whole.fits _ haccepts) hfits).1 hspan⟩, hreached⟩
  · rintro ⟨⟨p, hp, ⟨-, hchosen⟩, hspan⟩, hreached⟩
    have haccepts := (hreads.union _).2 ⟨p, hp, hchosen⟩
    exact ⟨⟨hreached, haccepts⟩, (hg.span_iff hp (hreads.whole.fits _ haccepts)
      ((hreads.choice p hp).fits _ hchosen)).2 hspan⟩

end Choices
end GlobTarget

/-! ## The union of the choices -/

section Expansions
variable [Globs] {d : Disk} {options : WalkOptions} {pattern f : Path} {accepts : Bytes → Bool}

/-- The expansion of a pattern returns files or finds none. -/
def Expands (d : Disk) (options : WalkOptions) (pattern : Path) : Prop :=
  (∃ files, (expandGlob d options pattern).value = .ok files) ∨
    (expandGlob d options pattern).value = .error (.noMatches pattern.display)

/-- A file that the expansion of a pattern returns. -/
def Returns (d : Disk) (options : WalkOptions) (pattern f : Path) : Prop :=
  ∃ files, (expandGlob d options pattern).value = .ok files ∧ f ∈ files

/-- The expansion of a pattern returns the files that the expansions of the choices return together. -/
def Unites (d : Disk) (options : WalkOptions) (pattern : Path) (choices : List Path) : Prop :=
  ∀ f, Returns d options pattern f ↔ ∃ c ∈ choices, Returns d options c f

theorem expands_of_compiles (h : Globs.compile true pattern.display = .ok accepts) :
    Expands d options pattern := by
  by_cases hmatched : ∃ f, f ∈ GlobTarget.matched d options.hidden pattern accepts
  · exact .inl ⟨_, (expandGlob_eq_ok h).2 ⟨hmatched, rfl⟩⟩
  · exact .inr ((expandGlob_eq_noMatches h).2 (not_exists.1 hmatched))

theorem returns_iff (h : Globs.compile true pattern.display = .ok accepts) :
    Returns d options pattern f ↔
      f.language?.isSome = true ∧ f ∈ GlobTarget.matched d options.hidden pattern accepts := by
  simp only [Returns, expandGlob_eq_ok h]
  constructor
  · rintro ⟨files, ⟨-, rfl⟩, hf⟩
    simpa [and_comm] using hf
  · rintro ⟨hlang, hf⟩
    exact ⟨_, ⟨⟨f, hf⟩, rfl⟩, by simp [hlang, hf]⟩

end Expansions

open GlobTarget (Search Covered Reaches) in
/-- A pattern with a group of alternatives expands to what the patterns with one alternative in the place of
the group expand to together, as far as it is reached from the base of the whole pattern. -/
theorem expandGlob_group [Globs] {d : Disk} (wf : d.WellFormed) (options : WalkOptions) {crosses : Bool}
    {g : Glob.Group} {accepts : Bytes → Bool} {chosen : String → Bytes → Bool}
    (hreads : Globs.ReadsGroup crosses g accepts chosen) (hg : Covered crosses g) :
    Expands d options g.pattern ∧ (∀ p ∈ g.choices, Expands d options (g.chosen p)) ∧
      (∀ f, Returns d options g.pattern f ↔ (∃ p ∈ g.choices, Returns d options (g.chosen p) f) ∧
        Reaches d options.hidden (Search.ofPattern g.pattern).base f) ∧
      ((∀ p ∈ g.choices, (Search.ofPattern (g.chosen p)).base = (Search.ofPattern g.pattern).base) →
        Unites d options g.pattern (g.choices.map g.chosen)) := by
  have hwhole : Globs.compile true g.pattern.display = .ok accepts := by
    rw [Glob.Group.pattern, Path.display_ofText]
    exact hreads.whole.compiles
  have hpart : ∀ p ∈ g.choices, Globs.compile true (g.chosen p).display = .ok (chosen p) := by
    intro p hp
    rw [Glob.Group.chosen, Path.display_ofText]
    exact (hreads.choice p hp).compiles
  have hunion : ∀ f, Returns d options g.pattern f ↔
      (∃ p ∈ g.choices, Returns d options (g.chosen p) f) ∧
        Reaches d options.hidden (Search.ofPattern g.pattern).base f := by
    intro f
    rw [returns_iff hwhole, GlobTarget.mem_matched_group wf hreads hg]
    constructor
    · rintro ⟨hlang, ⟨p, hp, hf⟩, hreached⟩
      exact ⟨⟨p, hp, (returns_iff (hpart p hp)).2 ⟨hlang, hf⟩⟩, hreached⟩
    · rintro ⟨⟨p, hp, hf⟩, hreached⟩
      obtain ⟨hlang, hf⟩ := (returns_iff (hpart p hp)).1 hf
      exact ⟨hlang, ⟨p, hp, hf⟩, hreached⟩
  refine ⟨expands_of_compiles hwhole, fun p hp => expands_of_compiles (hpart p hp), hunion,
    fun hbases f => ?_⟩
  simp only [hunion, List.mem_map, exists_exists_and_eq_and, and_iff_left_iff_imp]
  rintro ⟨p, hp, hf⟩
  obtain ⟨-, hmatched⟩ := (returns_iff (hpart p hp)).1 hf
  exact hbases p hp ▸ ((GlobTarget.mem_matched wf).1 hmatched).1.reached

/-! ## The standard library -/

section Standard
variable {d : Disk} {options : WalkOptions} {pattern f : Path}

theorem Glob.exists_compile {text : String} {s : Bytes} {b : Bool}
    (h : (parse strict text).map (fun glob => (glob.isTooDeep, glob.accepts s)) = .ok (false, b)) :
    ∃ accepts, Globs.compile true text = .ok accepts ∧ accepts s = b := by
  cases hparse : parse strict text with
  | error fault => simp [hparse, Except.map] at h
  | ok glob =>
    obtain ⟨hdepth, haccepts⟩ : glob.isTooDeep = false ∧ glob.accepts s = b := by
      simpa [hparse, Except.map] using h
    exact ⟨_, compile_of_parse hparse hdepth, haccepts⟩

/-- A supported file that the search for a pattern comes to and that the pattern accepts is returned. -/
theorem returns_of_accepts
    (hfile : (GlobTarget.search d options.hidden (.ofPattern pattern)).files.contains f = true)
    (hlanguage : f.language?.isSome = true)
    (h : (Glob.parse Glob.strict pattern.display).map
      (fun glob => (glob.isTooDeep, glob.accepts f.bytes)) = .ok (false, true)) :
    Returns d options pattern f := by
  obtain ⟨accepts, hcompile, haccepts⟩ := Glob.exists_compile h
  refine (returns_iff hcompile).2 ⟨hlanguage, List.mem_filter.2 ⟨?_, haccepts⟩⟩
  exact List.contains_iff_mem.1 hfile

theorem not_returns_of_accepts
    (h : (Glob.parse Glob.strict pattern.display).map
      (fun glob => (glob.isTooDeep, glob.accepts f.bytes)) = .ok (false, false)) :
    ¬ Returns d options pattern f := by
  obtain ⟨accepts, hcompile, haccepts⟩ := Glob.exists_compile h
  intro hreturns
  obtain ⟨-, hmatched⟩ := (returns_iff hcompile).1 hreturns
  exact Bool.false_ne_true (haccepts.symm.trans (List.mem_filter.1 hmatched).2)

theorem not_returns_of_search [Globs]
    (hfile : (GlobTarget.search d options.hidden (.ofPattern pattern)).files.contains f = false) :
    ¬ Returns d options pattern f := by
  rintro ⟨files, hvalue, hf⟩
  rw [value_expandGlob] at hvalue
  cases hcompile : Globs.compile true pattern.display with
  | error details => simp [hcompile] at hvalue
  | ok accepts =>
    obtain ⟨-, hmatched⟩ := (returns_iff hcompile).1 ⟨files, by rwa [value_expandGlob], hf⟩
    have hmem := List.contains_iff_mem.2 (List.mem_filter.1 hmatched).1
    exact Bool.false_ne_true (hfile.symm.trans hmem)

end Standard

/-- A directory with a source in it. -/
def sourceIn (directory name : String) : Disk :=
  { entries :=
      [([Bytes.ofText directory], .directory),
        ([Bytes.ofText directory, Bytes.ofText name], .file [] 0o644)]
    home := [] }

namespace Glob

/-- The source `a.ts` in what a token stands for. -/
def inside (t : GlobToken) : Glob := ⟨strict, t :: ['/', 'a', '.', 't', 's'].map .literal⟩

theorem accepts_inside {t : GlobToken} {s : Bytes} :
    (inside t).accepts s = true ↔ ∃ x, s = x ++ Bytes.ofText "/a.ts" ∧ Takes strict t x := by
  have hspelt : ['/', 'a', '.', 't', 's'].flatMap String.utf8EncodeChar = Bytes.ofText "/a.ts" := by decide
  rw [accepts_iff, or_iff_right (by simp [inside])]
  simp only [inside, TakesAll, takesAll_literals, hspelt]
  constructor
  · rintro ⟨x, _, rfl, hx, rfl⟩
    exact ⟨x, rfl, hx⟩
  · rintro ⟨x, rfl, hx⟩
    exact ⟨x, _, rfl, hx, rfl⟩

/-- A source in the directory `q` or in any other. -/
def anyDirectory : Group := ⟨"", ["q", "*"], "/a.ts"⟩

/-- What the standard library makes of the choices. -/
def directoryToken (p : String) : GlobToken := if p = "q" then .literal 'q' else .star

theorem mem_anyDirectory {p : String} (h : p ∈ anyDirectory.choices) : p = "q" ∨ p = "*" := by
  simpa [anyDirectory] using h

theorem reads_anyDirectory : Globs.ReadsGroup false anyDirectory
    (inside (.alternates [[.literal 'q'], [.star]])).accepts fun p => (inside (directoryToken p)).accepts := by
  have htail : Fits false (Bytes.ofText "/a.ts") (Bytes.ofText "/a.ts") := fits_self (by decide +kernel)
  have hstar : ∀ {x}, Takes strict .star x → Fits false (Bytes.ofText "*") x := by
    intro x hx
    have hrun : Fits false [star] (x ++ []) := .anyRun (not_slash_of_wildcard hx) .nil
    rwa [List.append_nil] at hrun
  have htakes : ∀ {x}, Takes strict (.alternates [[.literal 'q'], [.star]]) x ↔
      Takes strict (.literal 'q') x ∨ Takes strict .star x := by
    simp [Takes, TakesSome, TakesAll, isVoid, isVoid.allVoid]
  have hletter : ∀ {x}, Takes strict (.literal 'q') x → Fits false (Bytes.ofText "q") x := by
    rintro x rfl
    exact fits_self (by decide +kernel)
  refine ⟨⟨compile_of_parse (by cbv) (by cbv), fun s haccepts => ?_⟩, fun p hp => ?_, fun s => ?_⟩
  · obtain ⟨x, rfl, hx⟩ := accepts_inside.1 haccepts
    have hgroup : ∀ {p : Bytes}, p ∈ [Bytes.ofText "q", Bytes.ofText "*"] → Fits false p x →
        Fits false (Bytes.ofText anyDirectory.text) (x ++ Bytes.ofText "/a.ts") := by
      intro p hp hfits
      exact .group hp hfits htail
    rcases htakes.1 hx with hx | hx
    · exact hgroup (by simp) (hletter hx)
    · exact hgroup (by simp) (hstar hx)
  · obtain rfl | rfl := mem_anyDirectory hp
    · refine ⟨compile_of_parse (by cbv) (by cbv), fun s haccepts => ?_⟩
      obtain ⟨x, rfl, rfl⟩ := accepts_inside.1 haccepts
      exact fits_self (by decide +kernel)
    · refine ⟨compile_of_parse (by cbv) (by cbv), fun s haccepts => ?_⟩
      obtain ⟨x, rfl, hx⟩ := accepts_inside.1 haccepts
      exact .anyRun (not_slash_of_wildcard hx) htail
  · have hletterToken : directoryToken "q" = .literal 'q' := rfl
    have hstarToken : directoryToken "*" = .star := rfl
    simp [anyDirectory, accepts_inside, htakes, hletterToken, hstarToken, and_or_left, exists_or]

end Glob

theorem covered_anyDirectory : GlobTarget.Covered false Glob.anyDirectory := by
  have hbase : (GlobTarget.Search.ofPattern Glob.anyDirectory.pattern).base = ⟨[]⟩ := by cbv
  have hstar : (GlobTarget.Search.ofPattern (Glob.anyDirectory.chosen "*")).base = ⟨[]⟩ := by cbv
  have hplain : (GlobTarget.Search.ofPattern (Glob.anyDirectory.chosen "q")).base =
      Path.ofText "q/a.ts" := by cbv
  refine ⟨?_, fun p hp hne => ?_, .inl rfl⟩
  · rw [hbase]
    decide
  · obtain rfl | rfl := Glob.mem_anyDirectory hp
    · rw [hplain]
      exact ⟨⟨by decide, by decide⟩, by decide +kernel⟩
    · exact absurd (hstar.trans hbase.symm) hne

theorem expandGlob_group_anyDirectory :
    Glob.anyDirectory.pattern = Path.ofText "\x7bq,*\x7d/a.ts" ∧
      (∀ f, Returns (sourceIn "q" "a.ts") {} (Path.ofText "\x7bq,*\x7d/a.ts") f ↔
        (Returns (sourceIn "q" "a.ts") {} (Path.ofText "q/a.ts") f ∨
          Returns (sourceIn "q" "a.ts") {} (Path.ofText "*/a.ts") f) ∧
        GlobTarget.Reaches (sourceIn "q" "a.ts") true ⟨[]⟩ f) ∧
      Returns (sourceIn "q" "a.ts") {} (Path.ofText "\x7bq,*\x7d/a.ts") (Path.ofText "q/a.ts") := by
  have hpattern : Glob.anyDirectory.pattern = Path.ofText "\x7bq,*\x7d/a.ts" := by cbv
  have hbase : (GlobTarget.Search.ofPattern (Path.ofText "\x7bq,*\x7d/a.ts")).base = ⟨[]⟩ := by cbv
  have hplain : Glob.anyDirectory.chosen "q" = Path.ofText "q/a.ts" := by cbv
  have hstar : Glob.anyDirectory.chosen "*" = Path.ofText "*/a.ts" := by cbv
  have hchoices : Glob.anyDirectory.choices = ["q", "*"] := rfl
  obtain ⟨-, -, hunion, -⟩ :=
    @expandGlob_group _ (sourceIn "q" "a.ts") (by decide) {} false Glob.anyDirectory _ _
      Glob.reads_anyDirectory covered_anyDirectory
  refine ⟨hpattern, fun f => ?_, ?_⟩
  · simpa [hchoices, hpattern, hplain, hstar, hbase] using hunion f
  · exact returns_of_accepts (by cbv) (by cbv) (by cbv)

/-! ## Where an expansion is no union -/

section Departures
variable [Globs] {d : Disk} {options : WalkOptions} {pattern f c c' : Path}

theorem not_unites_of_missing (hno : ¬ Returns d options pattern f) (h : Returns d options c f) :
    ¬ Unites d options pattern [c, c'] :=
  fun hunites => hno ((hunites f).2 ⟨c, List.mem_cons_self, h⟩)

theorem not_unites_of_extra (h : Returns d options pattern f) (hno : ¬ Returns d options c f)
    (hno' : ¬ Returns d options c' f) : ¬ Unites d options pattern [c, c'] := by
  intro hunites
  obtain ⟨choice, hchoice, hreturns⟩ := (hunites f).1 h
  obtain rfl | rfl : choice = c ∨ choice = c' := by simpa using hchoice
  · exact hno hreturns
  · exact hno' hreturns

end Departures

/-- A component with a group in it is taken for the name of a directory. -/
theorem not_unites_leading : ¬ Unites (sourceIn "src" "x.ts") {} (Path.ofText "\x7bsrc,lib\x7d/*.ts")
    [Path.ofText "src/*.ts", Path.ofText "lib/*.ts"] :=
  not_unites_of_missing (f := Path.ofText "src/x.ts") (not_returns_of_search (by cbv))
    (returns_of_accepts (by cbv) (by cbv) (by cbv))

/-- A choice that names `.git` starts there, and the search for the whole pattern does not go there. -/
theorem not_unites_git : ¬ Unites (sourceIn ".git" "a.ts") {} (Path.ofText "\x7b.git,s*\x7d/a.ts")
    [Path.ofText ".git/a.ts", Path.ofText "s*/a.ts"] :=
  not_unites_of_missing (f := Path.ofText ".git/a.ts") (not_returns_of_search (by cbv))
    (returns_of_accepts (by cbv) (by cbv) (by cbv))

/-- A choice that names a link starts behind it, and the search for the whole pattern does not follow it. -/
theorem not_unites_link : ¬ Unites linkedTree {} (Path.ofText "\x7bl,s*\x7d/a.ts")
    [Path.ofText "l/a.ts", Path.ofText "s*/a.ts"] :=
  not_unites_of_missing (f := Path.ofText "l/a.ts") (not_returns_of_search (by cbv))
    (returns_of_accepts (by cbv) (by cbv) (by cbv))

/-- A choice that starts at `-` finds nothing, and the search for the whole pattern goes there. -/
theorem not_unites_dash : ¬ Unites dashTree {} (Path.ofText "\x7b-,s*\x7d/*.ts")
    [Path.ofText "-/*.ts", Path.ofText "s*/*.ts"] :=
  not_unites_of_extra (f := Path.ofText "-/a.ts") (returns_of_accepts (by cbv) (by cbv) (by cbv))
    (not_returns_of_search (by cbv)) (not_returns_of_accepts (by cbv))

/-- A choice starts at the name that an escape spells out, and the pattern does not mean that name. -/
theorem not_unites_escape : ¬ Unites (sourceIn "xy" "a.ts") {} (Path.ofText "\x7bx,s*\x7d\\y/a.ts")
    [Path.ofText "x\\y/a.ts", Path.ofText "s*\\y/a.ts"] :=
  not_unites_of_extra (f := Path.ofText "xy/a.ts") (returns_of_accepts (by cbv) (by cbv) (by cbv))
    (not_returns_of_search (by cbv)) (not_returns_of_accepts (by cbv))

/-- A double star that begins an alternative is a component there, and in its place it is two stars. -/
theorem not_unites_doubleStar : ¬ Unites ⟨[([Bytes.ofText "xb.ts"], .file [] 0o644)], []⟩ {}
    (Path.ofText "?\x7ba,**/b.ts\x7d") [Path.ofText "?a", Path.ofText "?**/b.ts"] :=
  not_unites_of_extra (f := Path.ofText "xb.ts") (returns_of_accepts (by cbv) (by cbv) (by cbv))
    (not_returns_of_accepts (by cbv)) (not_returns_of_accepts (by cbv))

/-- A class takes a slash, and the search for the choice is not deep enough for it. -/
theorem not_unites_class : ¬ Unites (sourceIn "qc" "y.ts") {} (Path.ofText "?\x7ba/b,c\x7d[!x]y.ts")
    [Path.ofText "?a/b[!x]y.ts", Path.ofText "?c[!x]y.ts"] :=
  not_unites_of_extra (f := Path.ofText "qc/y.ts") (returns_of_accepts (by cbv) (by cbv) (by cbv))
    (not_returns_of_accepts (by cbv)) (not_returns_of_search (by cbv))

/-- Patterns with a group that do not expand to the union of their choices. -/
theorem expandGlob_group_departs :
    ¬ Unites (sourceIn "src" "x.ts") {} (Path.ofText "\x7bsrc,lib\x7d/*.ts")
        [Path.ofText "src/*.ts", Path.ofText "lib/*.ts"] ∧
      ¬ Unites (sourceIn ".git" "a.ts") {} (Path.ofText "\x7b.git,s*\x7d/a.ts")
        [Path.ofText ".git/a.ts", Path.ofText "s*/a.ts"] ∧
      ¬ Unites linkedTree {} (Path.ofText "\x7bl,s*\x7d/a.ts")
        [Path.ofText "l/a.ts", Path.ofText "s*/a.ts"] ∧
      ¬ Unites dashTree {} (Path.ofText "\x7b-,s*\x7d/*.ts")
        [Path.ofText "-/*.ts", Path.ofText "s*/*.ts"] ∧
      ¬ Unites (sourceIn "xy" "a.ts") {} (Path.ofText "\x7bx,s*\x7d\\y/a.ts")
        [Path.ofText "x\\y/a.ts", Path.ofText "s*\\y/a.ts"] ∧
      ¬ Unites ⟨[([Bytes.ofText "xb.ts"], .file [] 0o644)], []⟩ {} (Path.ofText "?\x7ba,**/b.ts\x7d")
        [Path.ofText "?a", Path.ofText "?**/b.ts"] ∧
      ¬ Unites (sourceIn "qc" "y.ts") {} (Path.ofText "?\x7ba/b,c\x7d[!x]y.ts")
        [Path.ofText "?a/b[!x]y.ts", Path.ofText "?c[!x]y.ts"] :=
  ⟨not_unites_leading, not_unites_git, not_unites_link, not_unites_dash, not_unites_escape,
    not_unites_doubleStar, not_unites_class⟩

end Uncomment
