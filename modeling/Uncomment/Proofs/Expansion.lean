import Mathlib
import Uncomment.Proofs.GlobLanguage
import Uncomment.Proofs.GlobSearch

/-! What a pattern expands to: the supported files among those that are reached from its base and that its
glob accepts, in order. Neither the base nor the depth of the search leaves out a file that the glob
accepts. -/
namespace Uncomment
open Ascii

namespace GlobTarget

/-- A pattern without classes, alternatives and escapes. -/
def IsSimple (pattern : Path) : Prop :=
  ∀ b ∈ [openBracket, openBrace, closeBrace, backslash], b ∉ pattern.bytes

instance (pattern : Path) : Decidable (IsSimple pattern) :=
  List.decidableBAll (fun b => b ∉ pattern.bytes) [openBracket, openBrace, closeBrace, backslash]

theorem IsSimple.isMark_eq_false {pattern : Path} (h : IsSimple pattern) {b : UInt8}
    (hb : b ∈ pattern.bytes) : Glob.isMark b = false := by
  rw [← Bool.not_eq_true, Glob.isMark, Bool.or_eq_true, beq_iff_eq, beq_iff_eq]
  rintro (rfl | rfl)
  · exact h backslash (by simp) hb
  · exact h openBrace (by simp) hb

/-! ## What is found and accepted -/

section Matched
variable {d : Disk} {hidden : Bool} {pattern : Path} {accepts : Bytes → Bool}

/-- A file that is reached from the base of the pattern and that the glob accepts. -/
structure Matches (d : Disk) (hidden : Bool) (pattern : Path) (accepts : Bytes → Bool) (f : Path) :
    Prop where
  reached : Reaches d hidden (Search.ofPattern pattern).base f
  accepted : accepts f.bytes = true

/-- The files of the search that the glob accepts. -/
def matched (d : Disk) (hidden : Bool) (pattern : Path) (accepts : Bytes → Bool) : List Path :=
  (search d hidden (.ofPattern pattern)).files.filter fun p => accepts p.bytes

/-- How many components a search covers, those of its base included. -/
def Search.span (s : Search) : Option Nat := s.depth.map (s.base.components.length + ·)

theorem IsWay.isName (wf : d.WellFormed) {base : Path} {way : List Bytes} (h : IsWay d hidden base way) :
    ∀ name ∈ way, IsName name := by
  obtain ⟨-, loc, -, hfinds⟩ := h
  exact hfinds.isName wf

theorem mem_matched (wf : d.WellFormed) {f : Path} :
    f ∈ matched d hidden pattern accepts ↔ Matches d hidden pattern accepts f ∧
      ∀ m, (Search.ofPattern pattern).span = some m → f.components.length ≤ m := by
  set s := Search.ofPattern pattern with hs
  have hlength : ∀ {way : List Bytes}, IsWay d hidden s.base way →
      ((∀ n, s.depth = some n → way.length ≤ n) ↔
        ∀ m, s.span = some m → (s.base.joinAll way).components.length ≤ m) := by
    intro way hway
    rw [components_way (hway.isName wf), List.length_append, List.length_map, Search.span]
    cases s.depth <;> simp
  rw [matched, List.mem_filter, ← hs, mem_search wf]
  constructor
  · rintro ⟨⟨way, rfl, hway, hlen⟩, haccepts⟩
    exact ⟨⟨⟨way, rfl, hway⟩, haccepts⟩, (hlength hway).1 hlen⟩
  · rintro ⟨⟨⟨way, rfl, hway⟩, haccepts⟩, hlen⟩
    exact ⟨⟨way, rfl, hway, (hlength hway).2 hlen⟩, haccepts⟩

end Matched
end GlobTarget

section Value
variable [Globs] {d : Disk} {options : WalkOptions} {pattern : Path} {accepts : Bytes → Bool}
open GlobTarget (matched)

/-- What an expansion returns for the files that its glob accepts. -/
def settled (text : String) (found : List Path) : Except Failure (List Path) :=
  if found.isEmpty then .error (.noMatches text)
  else .ok ((found.filter (·.language?.isSome)).mergeSort Path.le)

theorem value_expandGlob (d : Disk) (options : WalkOptions) (pattern : Path) :
    (expandGlob d options pattern).value =
      match Globs.compile true pattern.display with
      | .error details => .error (.invalidPattern pattern.display details)
      | .ok accepts => settled pattern.display (matched d options.hidden pattern accepts) := by
  rw [expandGlob]
  cases Globs.compile true pattern.display with
  | error details => rfl
  | ok accepts =>
    change (if (matched d options.hidden pattern accepts).isEmpty then _ else _ : Effect _).value = _
    dsimp only
    rw [settled]
    split_ifs <;> rfl

theorem expandGlob_eq_noMatches (h : Globs.compile true pattern.display = .ok accepts) :
    (expandGlob d options pattern).value = .error (.noMatches pattern.display) ↔
      ∀ f, f ∉ matched d options.hidden pattern accepts := by
  rw [value_expandGlob, h, ← List.eq_nil_iff_forall_not_mem, ← List.isEmpty_iff]
  dsimp only
  rw [settled]
  split_ifs with hempty <;> simp [hempty]

theorem expandGlob_eq_ok (h : Globs.compile true pattern.display = .ok accepts) {files : List Path} :
    (expandGlob d options pattern).value = .ok files ↔
      (∃ f, f ∈ matched d options.hidden pattern accepts) ∧
        files = ((matched d options.hidden pattern accepts).filter (·.language?.isSome)).mergeSort
          Path.le := by
  rw [value_expandGlob, h]
  dsimp only
  rw [settled]
  cases hmatched : matched d options.hidden pattern accepts with
  | nil => simp
  | cons f fs =>
    constructor
    · exact fun heq => ⟨⟨f, List.mem_cons_self⟩, (Except.ok.inj heq).symm⟩
    · rintro ⟨-, rfl⟩
      rfl

/-- The files of an expansion are in order, each once. -/
theorem expandGlob_sorted (wf : d.WellFormed) {files : List Path}
    (h : (expandGlob d options pattern).value = .ok files) :
    files.Pairwise fun p q => Path.compare p q = .lt := by
  have hle : files.Pairwise fun p q => p.le q = true := by
    rw [expandGlob] at h
    split at h
    · simp at h
    · dsimp only at h
      split_ifs at h
      obtain rfl := Except.ok.inj h
      exact @List.pairwise_mergeSort Path Path.le (fun _ _ _ => Path.le_trans) Path.le_total _
  refine (hle.and (apart_expandGlob wf h)).imp ?_
  rintro p q ⟨hpq, happart⟩
  have hne : Path.compare p q ≠ .eq := fun heq => happart.components (Path.compare_eq_eq.1 heq)
  have hgt : Path.compare p q ≠ .gt := by simpa [Path.le] using hpq
  cases hcompare : Path.compare p q <;> simp_all

end Value

open GlobTarget (IsSimple Matches Search) in
/-- The expansion of a pattern returns the supported files that match it, in order and each once, and fails
where no file matches, supported or not. Of what the glob accepts nothing is deeper than the search goes, and
nothing is outside the base that the search starts from. -/
theorem expandGlob_exact [Globs] {d : Disk} (wf : d.WellFormed) (options : WalkOptions) {pattern : Path}
    (hsimple : IsSimple pattern) {accepts : Bytes → Bool}
    (hreads : Globs.Reads false pattern.display accepts) :
    ((expandGlob d options pattern).value = .error (.noMatches pattern.display) ↔
        ∀ f, ¬ Matches d options.hidden pattern accepts f) ∧
      ((∃ f, Matches d options.hidden pattern accepts f) →
        ∃ files, (expandGlob d options pattern).value = .ok files ∧
          files.Pairwise (fun p q => Path.compare p q = .lt) ∧
          ∀ f, f ∈ files ↔ f.language?.isSome = true ∧ Matches d options.hidden pattern accepts f) ∧
      ∀ s, accepts s = true →
        (∀ n, (Search.ofPattern pattern).depth = some n →
          (Path.mk s).components.length ≤ (Search.ofPattern pattern).base.components.length + n) ∧
        (Utf8.isValid pattern.bytes = true →
          (Search.ofPattern pattern).base.components <+: (Path.mk s).components) := by
  have hmatched : ∀ f, f ∈ GlobTarget.matched d options.hidden pattern accepts ↔
      Matches d options.hidden pattern accepts f := by
    intro f
    rw [GlobTarget.mem_matched wf, and_iff_left_iff_imp]
    intro h m hm
    obtain ⟨n, hn, rfl⟩ := Option.map_eq_some_iff.1 hm
    exact GlobTarget.length_le_of_fits hn (hreads.fits _ h.accepted)
  refine ⟨?_, ?_, fun s haccepts =>
    ⟨fun n hn => GlobTarget.length_le_of_fits hn (hreads.fits s haccepts), fun hvalid => ?_⟩⟩
  · rw [expandGlob_eq_noMatches hreads.compiles]
    simp only [hmatched]
  · rintro ⟨f, hf⟩
    have hvalue := (expandGlob_eq_ok hreads.compiles).2 ⟨⟨f, (hmatched f).2 hf⟩, rfl⟩
    refine ⟨_, hvalue, expandGlob_sorted wf hvalue, fun g => ?_⟩
    rw [List.mem_mergeSort, List.mem_filter, hmatched, and_comm]
  · have hfits := hreads.fits s haccepts
    rw [Path.display, Utf8.ofText_lossy hvalid] at hfits
    refine GlobTarget.base_prefix_of_fits (fun c hc b hb => hsimple.isMark_eq_false ?_) hfits
    rw [Search.components_base] at hc
    exact Path.mem_of_mem_components ((List.takeWhile_prefix _).subset hc) hb

/-! ## The standard library -/

namespace Glob

theorem compile_of_parse {text : String} {glob : Glob} (h : parse strict text = .ok glob)
    (hdepth : glob.isTooDeep = false) : Globs.compile true text = .ok glob.accepts := by
  change compile true text = _
  rw [compile, show (⟨true, false⟩ : GlobOptions) = strict from rfl, h]
  simp [hdepth]

theorem not_slash_of_wildcard {t : Bytes} (h : ∀ b ∈ t, wildcard strict b = true) : slash ∉ t :=
  fun hmem => absurd (h slash hmem) (by decide)

/-- The sources below `p`. -/
def sourcesBelow : Glob :=
  ⟨strict, [.literal 'p', .between, .star, .literal '.', .literal 't', .literal 's']⟩

theorem reads_sourcesBelow : Globs.Reads false (Path.ofText "p/**/*.ts").display sourcesBelow.accepts := by
  refine ⟨compile_of_parse (by cbv) (by cbv), fun s haccepts => ?_⟩
  have htext : Bytes.ofText (Path.ofText "p/**/*.ts").display =
      Bytes.ofText "p/" ++ star :: star :: slash :: star :: Bytes.ofText ".ts" := by cbv
  obtain ⟨x, y, rfl, rfl, z, w, rfl, hz, t, u, rfl, ht, hu⟩ :=
    (accepts_iff.1 haccepts).resolve_left (by simp [sourcesBelow])
  obtain rfl : u = Bytes.ofText ".ts" := (@takesAll_literals _ ['.', 't', 's'] _).1 hu
  have hname : Fits false (star :: Bytes.ofText ".ts") (t ++ Bytes.ofText ".ts") :=
    .anyRun (not_slash_of_wildcard ht) (fits_self (by decide +kernel))
  have hfront : ∀ b ∈ Bytes.ofText "p/", isActive b = false := by decide +kernel
  have hspelt : Bytes.ofText "p/" = String.utf8EncodeChar 'p' ++ [slash] := by decide
  rw [htext]
  rcases hz with rfl | ⟨directories, rfl⟩
  · exact .append_left hfront (.nowhere hname)
  · have hbelow := Fits.byte (show isActive slash = false by decide) hname
    simpa [hspelt] using (hbelow.anything (t := directories)).append_left hfront

end Glob

open GlobTarget (Matches) in
theorem expandGlob_exact_sourceTree :
    (expandGlob sourceTree {} (Path.ofText "p/**/*.ts")).value =
        .ok [Path.ofText "p/a.ts", Path.ofText "p/q/b.ts"] ∧
      ∀ f, f ∈ [Path.ofText "p/a.ts", Path.ofText "p/q/b.ts"] ↔
        f.language?.isSome = true ∧
          Matches sourceTree true (Path.ofText "p/**/*.ts") Glob.sourcesBelow.accepts f := by
  have hvalue : (expandGlob sourceTree {} (Path.ofText "p/**/*.ts")).value =
      .ok [Path.ofText "p/a.ts", Path.ofText "p/q/b.ts"] := by
    rw [value_expandGlob]
    cbv
  obtain ⟨hnone, hsome, -⟩ :=
    expandGlob_exact wellFormed_sourceTree {} (show GlobTarget.IsSimple (Path.ofText "p/**/*.ts") by decide)
      Glob.reads_sourcesBelow
  refine ⟨hvalue, ?_⟩
  have hmatch : ∃ f, Matches sourceTree true (Path.ofText "p/**/*.ts") Glob.sourcesBelow.accepts f := by
    by_contra hno
    have herror := hnone.2 fun f hf => hno ⟨f, hf⟩
    rw [hvalue] at herror
    cases herror
  obtain ⟨files, hfiles, -, hmem⟩ := hsome hmatch
  obtain rfl := Except.ok.inj (hvalue.symm.trans hfiles)
  exact hmem

/-! ## Files that are left out, and links that are followed -/

namespace Disk

/-- Directories of one name, each in the one before, and a file in the last. -/
def chain (name file : Bytes) (n : Nat) : Disk :=
  { entries := (List.range n).map (fun k => (List.replicate (k + 1) name, .directory)) ++
      [(List.replicate n name ++ [file], .file [] 0o644)]
    home := [] }

variable {name file : Bytes} {n : Nat}

theorem places_chain : (chain name file n).places =
    (List.range n).map (fun k => List.replicate (k + 1) name) ++ [List.replicate n name ++ [file]] := by
  simp [places, chain, Function.comp_def]

theorem nodup_chain : (chain name file n).places.Nodup := by
  rw [places_chain, List.nodup_append]
  refine ⟨List.Nodup.map_on (fun j _ k _ heq => ?_) List.nodup_range, List.nodup_singleton _, ?_⟩
  · simpa using congrArg List.length heq
  · rintro loc hloc loc' hloc' rfl
    obtain ⟨k, hk, rfl⟩ := List.mem_map.1 hloc
    have hlen := congrArg List.length (List.mem_singleton.1 hloc')
    simp only [List.length_replicate, List.length_append, List.length_singleton] at hlen
    rw [List.mem_range] at hk
    omega

theorem node?_chain {k : Nat} (hk : k ≤ n) :
    (chain name file n).node? (List.replicate k name) = some .directory := by
  cases k with
  | zero => rfl
  | succ k =>
    rw [node?_of_ne_nil _ (by simp)]
    refine lookup_of_mem nodup_chain (List.mem_append_left _ ?_)
    exact List.mem_map.2 ⟨k, List.mem_range.2 hk, rfl⟩

theorem node?_chain_file :
    (chain name file n).node? (List.replicate n name ++ [file]) = some (.file [] 0o644) := by
  rw [node?_of_ne_nil _ (by simp)]
  exact lookup_of_mem nodup_chain (List.mem_append_right _ List.mem_cons_self)

theorem wellFormed_chain (hname : IsName name) (hfile : IsName file) : (chain name file n).WellFormed := by
  refine ⟨nodup_chain, fun loc hloc => ?_, fun loc hloc => ?_, rfl⟩
  all_goals
    rw [places_chain] at hloc
    rcases List.mem_append.1 hloc with hdir | hlast
  · obtain ⟨k, -, rfl⟩ := List.mem_map.1 hdir
    exact ⟨by simp, fun part hpart => List.eq_of_mem_replicate hpart ▸ hname⟩
  · obtain rfl := List.mem_singleton.1 hlast
    refine ⟨by simp, fun part hpart => ?_⟩
    rcases List.mem_append.1 hpart with hpart | hpart
    · exact List.eq_of_mem_replicate hpart ▸ hname
    · exact List.mem_singleton.1 hpart ▸ hfile
  · obtain ⟨k, hk, rfl⟩ := List.mem_map.1 hdir
    rw [List.dropLast_replicate]
    exact node?_chain (List.mem_range.1 hk).le
  · obtain rfl := List.mem_singleton.1 hlast
    rw [List.dropLast_concat]
    exact node?_chain le_rfl

end Disk

open GlobTarget (Search) in
theorem matched_chain {name file : Bytes} {n : Nat} (hname : IsName name) (hfile : IsName file)
    (hlong : Disk.pathLimit ≤ (Path.here.joinAll (List.replicate n name)).bytes.length) {pattern : Path}
    (hbase : (Search.ofPattern pattern).base.isEmpty = true) (hidden : Bool)
    (accepts : Bytes → Bool) (f : Path) :
    f ∉ GlobTarget.matched (Disk.chain name file n) hidden pattern accepts := by
  have wf := @Disk.wellFormed_chain name file n hname hfile
  rw [GlobTarget.mem_matched wf]
  rintro ⟨⟨⟨way, -, -, loc, hplace, hfinds⟩, -⟩, -⟩
  rw [GlobTarget.start, if_pos hbase] at hplace hfinds
  obtain rfl : loc = [] := Except.ok.inj ((Disk.reach_of_resolve hplace).symm.trans wf.reach_here)
  obtain ⟨content, mode, hnode⟩ := hfinds.regular
  have hentry := Disk.mem_of_node? (Disk.ne_nil_of_file hnode) hnode
  obtain rfl : way = List.replicate n name ++ [file] := by
    simp [Disk.chain] at hentry
    exact hentry.1
  exact absurd (hfinds.opens (List.replicate n name) file [] rfl) (not_lt.2 hlong)

/-- Sixteen directories with the longest of names, each in the one before, and a source in the last. -/
def longTree : Disk := .chain (List.replicate 255 97) (Bytes.ofText "a.ts") 16

/-- The path of its source. -/
def longPath : Path :=
  ⟨Bytes.join slash (List.replicate 16 (List.replicate 255 97)) ++ slash :: Bytes.ofText "a.ts"⟩

namespace Glob

/-- A source in any directory. -/
def anySource : Glob := ⟨strict, [.leading, .literal 'a', .literal '.', .literal 't', .literal 's']⟩

theorem compile_anySource : Globs.compile true "**/a.ts" = .ok anySource.accepts :=
  compile_of_parse (by cbv) (by cbv)

theorem accepts_anySource (front : Bytes) :
    anySource.accepts (front ++ slash :: Bytes.ofText "a.ts") = true := by
  refine accepts_iff.2 (.inr ⟨front ++ [slash], Bytes.ofText "a.ts", by simp, .inr ⟨front, rfl⟩, ?_⟩)
  exact (@takesAll_literals _ ['a', '.', 't', 's'] _).2 (by decide)

end Glob

theorem expandGlob_longTree :
    (expandGlob longTree {} (Path.ofText "**/a.ts")).value = .error (.noMatches "**/a.ts") := by
  have hdisplay : (Path.ofText "**/a.ts").display = "**/a.ts" := by cbv
  have hnone := @expandGlob_eq_noMatches _ longTree {} (Path.ofText "**/a.ts") Glob.anySource.accepts
  rw [hdisplay] at hnone
  exact (hnone Glob.compile_anySource).2 <|
    matched_chain (by decide +kernel) (by decide) (by decide +kernel) (by cbv) _ _

/-- A directory and a source, each with a link to it. -/
def linkedTree : Disk :=
  { entries :=
      [([Bytes.ofText "r"], .directory), ([Bytes.ofText "r", Bytes.ofText "a.ts"], .file [] 0o644),
        ([Bytes.ofText "l"], .link (Path.ofText "r")),
        ([Bytes.ofText "k.ts"], .link (Path.ofText "r/a.ts"))]
    home := [] }

/-- Where the names of the files alone do not tell an expansion: nothing is found from the base `-`, and
nothing in a directory whose path is too long to open; and a base that is a link is followed. -/
theorem expandGlob_departs :
    (dashTree.node? [Bytes.ofText "-", Bytes.ofText "a.ts"] = some (.file [] 0o644) ∧
      (Globs.compile true "-/*.ts").map (fun accepts => accepts (Bytes.ofText "-/a.ts")) = .ok true ∧
      (expandGlob dashTree {} (Path.ofText "-/*.ts")).value = .error (.noMatches "-/*.ts")) ∧
    (longTree.WellFormed ∧ (∃ loc, longTree.node? (loc ++ [Bytes.ofText "a.ts"]) = some (.file [] 0o644) ∧
        longPath.bytes = Bytes.join slash loc ++ slash :: Bytes.ofText "a.ts") ∧
      Globs.compile true "**/a.ts" = .ok Glob.anySource.accepts ∧
      Glob.anySource.accepts longPath.bytes = true ∧
      (expandGlob longTree {} (Path.ofText "**/a.ts")).value = .error (.noMatches "**/a.ts")) ∧
    linkedTree.node? [Bytes.ofText "l"] = some (.link (Path.ofText "r")) ∧
      linkedTree.node? [Bytes.ofText "k.ts"] = some (.link (Path.ofText "r/a.ts")) ∧
      (expandGlob linkedTree {} (Path.ofText "l/*.ts")).value = .ok [Path.ofText "l/a.ts"] ∧
      (expandGlob linkedTree {} (Path.ofText "k.ts")).value = .ok [Path.ofText "k.ts"] := by
  have hwf : longTree.WellFormed := Disk.wellFormed_chain (by decide +kernel) (by decide)
  have hdash : (expandGlob dashTree {} (Path.ofText "-/*.ts")).value = .error (.noMatches "-/*.ts") := by
    rw [value_expandGlob]
    cbv
  have hbase : (expandGlob linkedTree {} (Path.ofText "l/*.ts")).value = .ok [Path.ofText "l/a.ts"] := by
    rw [value_expandGlob]
    cbv
  have hlink : (expandGlob linkedTree {} (Path.ofText "k.ts")).value = .ok [Path.ofText "k.ts"] := by
    rw [value_expandGlob]
    cbv
  exact ⟨⟨by cbv, by cbv, hdash⟩,
    ⟨hwf, ⟨_, Disk.node?_chain_file, rfl⟩, Glob.compile_anySource, Glob.accepts_anySource _,
      expandGlob_longTree⟩,
    by cbv, by cbv, hbase, hlink⟩

end Uncomment
