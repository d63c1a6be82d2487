import Mathlib
import Uncomment.Proofs.GlobRegions
import Uncomment.Proofs.Selection
import Uncomment.Proofs.Walks

/-! What the search for a pattern finds: the regular files on a way from its base on which every entry
passes and every directory can be opened. The region that is searched leaves out no file that the
pattern accepts. -/
namespace Uncomment
open Ascii

namespace GlobTarget

/-- An entry that a search enters or reports. -/
structure Passes (hidden : Bool) (name : Bytes) (node : Node) : Prop where
  tracked : ¬ (node = .directory ∧ name = Bytes.ofText ".git")
  visible : hidden = false → Walk.isHidden name = false

/-- `way` leads from `directory`, which is at `loc`, to a regular file, every entry on it passes and every
directory on it can be opened. -/
structure Finds (d : Disk) (hidden : Bool) (directory : Path) (loc : Location) (way : List Bytes) :
    Prop where
  regular : ∃ content mode, d.node? (loc ++ way) = some (.file content mode)
  passes : ∀ front name back node, way = front ++ name :: back →
    d.node? (loc ++ (front ++ [name])) = some node → Passes hidden name node
  opens : Walk.Opens directory way

section Ways
variable {d : Disk} {hidden : Bool} {directory : Path} {loc : Location}

theorem passes_iff {name : Bytes} {node : Node} :
    ((hidden || !Walk.isHidden name) && !Walk.isVersionControl name node) = true ↔
      Passes hidden name node := by
  have hgit : Walk.isVersionControl name node = true ↔
      node = .directory ∧ name = Bytes.ofText ".git" := by
    simp [Walk.isVersionControl, Node.isDirectory]
  constructor
  · intro h
    simp only [Bool.and_eq_true, Bool.not_eq_true'] at h
    refine ⟨fun hvc => ?_, fun hhidden => by simpa [hhidden] using h.1⟩
    rw [hgit.2 hvc] at h
    cases h.2
  · intro h
    have hvc : Walk.isVersionControl name node = false := by
      rw [← Bool.not_eq_true, hgit]
      exact h.tracked
    cases hidden with
    | true => simp [hvc]
    | false => simp [hvc, h.visible rfl]

/-- No way leads to the directory itself. -/
theorem Finds.ne_nil {way : List Bytes} (h : Finds d hidden directory loc way)
    (hdir : d.node? loc = some .directory) : way ≠ [] := by
  rintro rfl
  obtain ⟨content, mode, hnode⟩ := h.regular
  simp [hdir] at hnode

theorem Finds.isName (wf : d.WellFormed) {way : List Bytes} (h : Finds d hidden directory loc way) :
    ∀ name ∈ way, IsName name := by
  obtain ⟨content, mode, hnode⟩ := h.regular
  exact fun name hname => wf.isName hnode name (List.mem_append_right _ hname)

theorem finds_nil : Finds d hidden directory loc [] ↔
    ∃ content mode, d.node? loc = some (.file content mode) := by
  constructor
  · intro h
    simpa using h.regular
  · intro h
    refine ⟨by simpa using h, fun front name back node hway => by simp at hway,
      fun front name back hway => by simp at hway⟩

/-- Something stands where a way begins. -/
theorem Finds.exists_node (wf : d.WellFormed) {way : List Bytes}
    (h : Finds d hidden directory loc way) : ∃ node, d.node? loc = some node := by
  obtain ⟨content, mode, hnode⟩ := h.regular
  cases way with
  | nil => exact ⟨_, by simpa using hnode⟩
  | cons name way => exact ⟨.directory, wf.rooted hnode loc name ⟨way, by simp⟩⟩

/-- No way leads on from a file. -/
theorem Finds.eq_nil (wf : d.WellFormed) {way : List Bytes} (h : Finds d hidden directory loc way)
    {content : Bytes} {mode : Nat} (hfile : d.node? loc = some (.file content mode)) : way = [] := by
  obtain ⟨content', mode', hnode⟩ := h.regular
  cases way with
  | nil => rfl
  | cons name way =>
    have hdir := wf.rooted hnode loc name ⟨way, by simp⟩
    simp [hfile] at hdir

theorem finds_singleton (hshort : directory.bytes.length < Disk.pathLimit) {name : Bytes} :
    Finds d hidden directory loc [name] ↔
      ∃ content mode, d.node? (loc ++ [name]) = some (.file content mode) ∧
        Passes hidden name (.file content mode) := by
  constructor
  · intro h
    obtain ⟨content, mode, hnode⟩ := h.regular
    exact ⟨content, mode, hnode, (Walk.forall_entry_cons.1 h.passes).1 _ hnode⟩
  · rintro ⟨content, mode, hnode, hpass⟩
    refine ⟨⟨content, mode, hnode⟩, Walk.forall_entry_cons.2 ⟨fun node hnode' => ?_, by simp⟩,
      Walk.opens_cons.2 ⟨hshort, fun front next back hway => by simp at hway⟩⟩
    obtain rfl : Node.file content mode = node := Option.some.inj (hnode.symm.trans hnode')
    exact hpass

theorem finds_cons {name : Bytes} {way : List Bytes} (hdir : d.node? (loc ++ [name]) = some .directory) :
    Finds d hidden directory loc (name :: way) ↔
      directory.bytes.length < Disk.pathLimit ∧ Passes hidden name .directory ∧
        Finds d hidden (directory.join ⟨name⟩) (loc ++ [name]) way := by
  constructor
  · intro h
    obtain ⟨hfirst, hrest⟩ := Walk.forall_entry_cons.1 h.passes
    obtain ⟨hshort, hopens⟩ := Walk.opens_cons.1 h.opens
    exact ⟨hshort, hfirst _ hdir, by simpa using h.regular, hrest, hopens⟩
  · rintro ⟨hshort, hpass, hbelow⟩
    refine ⟨by simpa using hbelow.regular, Walk.forall_entry_cons.2 ⟨fun node hnode => ?_,
      hbelow.passes⟩, Walk.opens_cons.2 ⟨hshort, hbelow.opens⟩⟩
    obtain rfl : Node.directory = node := Option.some.inj (hdir.symm.trans hnode)
    exact hpass

/-- A way goes through an entry that passes. It ends at a file and goes on in a directory. -/
theorem finds_iff (wf : d.WellFormed) (hdir : d.node? loc = some .directory)
    (hshort : directory.bytes.length < Disk.pathLimit) {way : List Bytes} :
    Finds d hidden directory loc way ↔ ∃ name rest node, way = name :: rest ∧
      d.node? (loc ++ [name]) = some node ∧ Passes hidden name node ∧
        ((∃ content mode, node = .file content mode) ∧ rest = [] ∨
          node = .directory ∧ Finds d hidden (directory.join ⟨name⟩) (loc ++ [name]) rest) := by
  constructor
  · intro h
    obtain ⟨name, rest, rfl⟩ := List.exists_cons_of_ne_nil (h.ne_nil hdir)
    by_cases hnil : rest = []
    · subst hnil
      obtain ⟨content, mode, hnode, hpass⟩ := (finds_singleton hshort).1 h
      exact ⟨name, [], _, rfl, hnode, hpass, .inl ⟨⟨content, mode, rfl⟩, rfl⟩⟩
    · have hnode : d.node? (loc ++ [name]) = some .directory := by
        obtain ⟨content, mode, hregular⟩ := h.regular
        obtain ⟨next, more, rfl⟩ := List.exists_cons_of_ne_nil hnil
        exact wf.rooted hregular (loc ++ [name]) next ⟨more, by simp⟩
      obtain ⟨-, hpass, hrest⟩ := (finds_cons hnode).1 h
      exact ⟨name, rest, _, rfl, hnode, hpass, .inr ⟨rfl, hrest⟩⟩
  · rintro ⟨name, rest, node, rfl, hnode, hpass, ⟨⟨content, mode, rfl⟩, rfl⟩ | ⟨rfl, hrest⟩⟩
    · exact (finds_singleton hshort).2 ⟨content, mode, hnode, hpass⟩
    · exact (finds_cons hnode).2 ⟨hshort, hpass, hrest⟩

theorem mem_entryFiles {f : Path} {levels : Nat} {name : Bytes} {node : Node} :
    f ∈ Found.entryFiles d hidden directory levels (name, node) ↔
      Passes hidden name node ∧
        ((∃ content mode, node = .file content mode) ∧ f = directory.join ⟨name⟩ ∨
          node = .directory ∧ f ∈ (Found.below d hidden (directory.join ⟨name⟩) levels).files) := by
  rw [Found.entryFiles, ← passes_iff]
  split_ifs with hpass
  · cases node <;> simp [hpass]
  · simp [hpass]

/-- The files of a search at most `levels` levels below a directory. -/
theorem mem_below (wf : d.WellFormed) (h : d.reach true directory = .ok loc)
    (hdir : d.node? loc = some .directory) (levels : Nat) (f : Path) :
    f ∈ (Found.below d hidden directory levels).files ↔
      ∃ way, way.length ≤ levels ∧ f = directory.joinAll way ∧ Finds d hidden directory loc way := by
  induction levels generalizing directory loc with
  | zero =>
    simp only [Found.below, List.not_mem_nil, Nat.le_zero, List.length_eq_zero_iff, false_iff, not_exists]
    rintro way ⟨rfl, -, hfinds⟩
    exact hfinds.ne_nil hdir rfl
  | succ levels ih =>
    obtain ⟨hlist, hfault⟩ := Walk.list_of_reach h hdir
    by_cases hshort : directory.bytes.length < Disk.pathLimit
    · simp only [Found.files_below_of_list (hlist hshort), List.mem_flatMap, finds_iff wf hdir hshort]
      constructor
      · rintro ⟨⟨name, node⟩, he, hfile⟩
        have hnode := wf.node?_of_mem (Disk.mem_children.1 he)
        obtain ⟨hpass, ⟨hregular, rfl⟩ | ⟨rfl, hbelow⟩⟩ := mem_entryFiles.1 hfile
        · exact ⟨[name], by simp, rfl, name, [], node, rfl, hnode, hpass, .inl ⟨hregular, rfl⟩⟩
        · obtain ⟨way, hlen, rfl, hfinds⟩ := (ih (wf.reach_child h he (by simp)) hnode).1 hbelow
          exact ⟨name :: way, by simpa using hlen, rfl, name, way, _, rfl, hnode, hpass, .inr ⟨rfl, hfinds⟩⟩
      · rintro ⟨-, hlen, rfl, name, way, node, rfl, hnode, hpass, hgoes⟩
        have hmem : (name, node) ∈ d.children loc :=
          Disk.mem_children.2 (Disk.mem_of_node? (by simp) hnode)
        refine ⟨_, hmem, mem_entryFiles.2 ⟨hpass, ?_⟩⟩
        rcases hgoes with ⟨hregular, rfl⟩ | ⟨rfl, hfinds⟩
        · exact .inl ⟨hregular, rfl⟩
        · have hreach := wf.reach_child h hmem (by simp)
          exact .inr ⟨rfl, (ih hreach hnode).2 ⟨way, by simpa using hlen, rfl, hfinds⟩⟩
    · -- a directory whose path is too long is reported, and no way leads through it
      obtain ⟨fault, hfault⟩ := hfault hshort
      have hnone : f ∉ (Found.below d hidden directory (levels + 1)).files := by
        rw [Found.below, hfault]
        simp [Found.unreadable]
      simp only [hnone, false_iff, not_exists]
      rintro way ⟨-, -, hfinds⟩
      obtain ⟨name, way, rfl⟩ := List.exists_cons_of_ne_nil (hfinds.ne_nil hdir)
      exact hshort (Walk.opens_cons.1 hfinds.opens).1

end Ways

/-! ## From the base -/

/-- The path that a search with this base begins at. -/
def start (base : Path) : Path := if base.isEmpty then Path.here else base

/-- `way` leads from the base of a search to a regular file. The base itself may be a link, and it is not
`-`, which stands for standard input. -/
def IsWay (d : Disk) (hidden : Bool) (base : Path) (way : List Bytes) : Prop :=
  Path.same (start base) Walk.standardInput = false ∧
    ∃ loc, d.resolve true (start base) = .ok loc ∧ Finds d hidden (start base) loc way

/-- A path that some way from the base of a search leads to. -/
def Reaches (d : Disk) (hidden : Bool) (base f : Path) : Prop :=
  ∃ way, f = base.joinAll way ∧ IsWay d hidden base way

end GlobTarget

/-- The dot leads to the working directory. -/
theorem Disk.WellFormed.reach_here {d : Disk} (wf : d.WellFormed) : d.reach true Path.here = .ok d.home := by
  have hsteps : Disk.steps Path.here = [.here, .here] := by decide
  refine Disk.reach_eq_ok.2 ⟨by decide, by decide, ?_⟩
  rw [hsteps]
  exact .here wf.home (.here wf.home .done)

namespace GlobTarget
variable {d : Disk}

theorem nil_joinAll {names : List Bytes} (hne : names ≠ []) (h : ∀ name ∈ names, IsName name) :
    (Path.mk []).joinAll names = ⟨Bytes.join slash names⟩ := by
  obtain ⟨name, rest, rfl⟩ := List.exists_cons_of_ne_nil hne
  have hname := h name List.mem_cons_self
  have hfirst : (Path.mk []).joinAll (name :: rest) = (Path.mk name).joinAll rest :=
    congrArg (fun p : Path => p.joinAll rest) (Path.nil_join ⟨name⟩)
  rw [hfirst]
  by_cases hrest : rest = []
  · subst hrest
    simp [Path.joinAll, Bytes.join]
  · have hlast : name.getLast? ≠ some slash := fun hlast => hname.no_slash (List.mem_of_getLast? hlast)
    rw [Path.joinAll_eq (by simpa [Path.isEmpty] using hname.ne_nil) hlast hrest
      fun n hn => h n (List.mem_cons_of_mem _ hn), Bytes.join_cons _ _ hrest]

theorem components_way {base : Path} {names : List Bytes} (h : ∀ name ∈ names, IsName name) :
    (base.joinAll names).components = base.components ++ names.map Component.name := by
  by_cases hbase : base.isEmpty = true
  · obtain rfl : base = ⟨[]⟩ := congrArg Path.mk (by simpa [Path.isEmpty] using hbase)
    by_cases hne : names = []
    · simp [hne, Path.joinAll]
    · rw [nil_joinAll hne h, Path.components_of_names hne h, Path.components_eq_nil.2 hbase,
        List.nil_append]
  · exact Path.components_joinAll (by simpa using hbase) h

/-- A way below the working directory is named without the leading dot. -/
theorem relative_joinAll {names : List Bytes} (hne : names ≠ []) (h : ∀ name ∈ names, IsName name) :
    (Path.relativeTo? Path.here (Path.here.joinAll names)).getD (Path.here.joinAll names) =
      (Path.mk []).joinAll names := by
  rw [Path.relativeTo?_here hne h, nil_joinAll hne h]
  rfl

/-- The files at a base and below it. -/
theorem mem_atBase (wf : d.WellFormed) (hidden : Bool) (base : Path) (levels : Nat) (f : Path) :
    f ∈ (Found.atBase d hidden (start base) levels).files ↔ ∃ way,
      f = (start base).joinAll way ∧ IsWay d hidden base way ∧ way.length ≤ levels := by
  simp only [IsWay]
  rw [Found.atBase]
  split_ifs with hinput
  · simp [hinput]
  · have hsame : Path.same (start base) Walk.standardInput = false := by simpa using hinput
    simp only [hsame, true_and]
    cases hstat : d.stat (start base) with
    | error fault =>
      simp only [Found.unreadable, List.not_mem_nil, false_iff]
      rintro ⟨way, -, ⟨loc, hplace, hfinds⟩, -⟩
      obtain ⟨node, hnode⟩ := hfinds.exists_node wf
      simp [Disk.stat_eq_ok.2 ⟨loc, hplace, hnode⟩] at hstat
    | ok node =>
      obtain ⟨loc, hplace, hnode⟩ := Disk.stat_eq_ok.1 hstat
      have hreach := Disk.reach_of_resolve hplace
      have hloc : ∀ {way}, (∃ loc, d.resolve true (start base) = .ok loc ∧
          Finds d hidden (start base) loc way) ↔ Finds d hidden (start base) loc way := by
        simp [hplace]
      simp only [hloc]
      cases node with
      | link target =>
        obtain ⟨found, hfound, hplain⟩ := wf.exists_node_of_reach hreach
        exact absurd (Option.some.inj (hfound.symm.trans hnode)) (hplain target)
      | directory =>
        simp only [mem_below wf hreach hnode]
        refine exists_congr fun way => ?_
        rw [and_comm, and_assoc]
      | file content mode =>
        simp only [List.mem_singleton]
        constructor
        · rintro rfl
          exact ⟨[], rfl, finds_nil.2 ⟨content, mode, hnode⟩, Nat.zero_le _⟩
        · rintro ⟨way, rfl, hfinds, -⟩
          rw [hfinds.eq_nil wf hnode]
          rfl

/-- The files of a search within its depth. -/
theorem mem_search (wf : d.WellFormed) (hidden : Bool) (s : Search) (f : Path) :
    f ∈ (search d hidden s).files ↔ ∃ way, f = s.base.joinAll way ∧ IsWay d hidden s.base way ∧
      ∀ n, s.depth = some n → way.length ≤ n := by
  have hlevels : ∀ {way : List Bytes}, IsWay d hidden s.base way →
      (way.length ≤ s.depth.getD d.entries.length ↔ ∀ n, s.depth = some n → way.length ≤ n) := by
    rintro way ⟨-, loc, -, hfinds⟩
    obtain ⟨content, mode, hnode⟩ := hfinds.regular
    have hlen := Walk.length_le_of_node? wf hnode
    cases s.depth <;> simp [hlen]
  have hatBase := mem_atBase wf hidden s.base (s.depth.getD d.entries.length)
  rw [search]
  split_ifs with hempty
  · have hbase : s.base = ⟨[]⟩ := congrArg Path.mk (by simpa [Path.isEmpty] using hempty)
    have hstart : start s.base = Path.here := if_pos hempty
    have hname : ∀ {way : List Bytes}, IsWay d hidden s.base way →
        (Path.relativeTo? Path.here (Path.here.joinAll way)).getD (Path.here.joinAll way) =
          s.base.joinAll way := by
      rintro way ⟨-, loc, hplace, hfinds⟩
      rw [hstart] at hplace hfinds
      have hhome := (Disk.reach_of_resolve hplace).symm.trans wf.reach_here
      have hdir : d.node? loc = some .directory := Except.ok.inj hhome ▸ wf.home
      rw [hbase, relative_joinAll (hfinds.ne_nil hdir) (hfinds.isName wf)]
    rw [hstart] at hatBase
    simp only [List.mem_map, hatBase]
    constructor
    · rintro ⟨_, ⟨way, rfl, hway, hlen⟩, rfl⟩
      exact ⟨way, hname hway, hway, (hlevels hway).1 hlen⟩
    · rintro ⟨way, rfl, hway, hlen⟩
      exact ⟨_, ⟨way, rfl, hway, (hlevels hway).2 hlen⟩, hname hway⟩
  · have hstart : start s.base = s.base := if_neg hempty
    rw [hstart] at hatBase
    rw [hatBase]
    exact exists_congr fun way => and_congr_right fun _ => and_congr_right fun hway => hlevels hway

end GlobTarget
end Uncomment
