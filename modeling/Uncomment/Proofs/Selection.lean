import Mathlib
import Uncomment.Proofs.Spellings

/-! Which files a walk reports: the supported regular files with a way from the root on which every
entry passes. An entry is judged in the directory it stands in, with the rules collected on the way. -/
namespace Uncomment
open Ascii

namespace Walk

/-- The rules in force in the directory that `names` lead to, for a walk that comes to `directory` with
the rules `around`. -/
def scopeAt [IgnoreRules] (d : Disk) (options : IgnoreOptions) (around : IgnoreRules.Scope)
    (directory : Path) : List Bytes → IgnoreRules.Scope
  | [] => IgnoreRules.enter d options around directory
  | name :: names =>
    scopeAt d options (IgnoreRules.enter d options around directory) (directory.join ⟨name⟩) names

/-- The entry `name` of the directory that `front` leads to is one that a walk does not pass over. -/
structure Passes [IgnoreRules] (d : Disk) (p : Plan) (around : IgnoreRules.Scope) (directory : Path)
    (front : List Bytes) (name : Bytes) (node : Node) : Prop where
  tracked : ¬ (node = .directory ∧ name = Bytes.ofText ".git")
  included : p.exclusion.excludes (directory.joinAll (front ++ [name])) p.root = false
  visible : IgnoreRules.rejects p.ignoring (scopeAt d p.ignoring around directory front)
    (directory.joinAll (front ++ [name])) node.isDirectory = false

/-- `way` leads from `directory`, which is at `loc`, to a supported regular file, and every entry on
it passes. -/
structure Selects [IgnoreRules] (d : Disk) (p : Plan) (around : IgnoreRules.Scope) (directory : Path)
    (loc : Location) (way : List Bytes) : Prop where
  regular : ∃ content mode, d.node? (loc ++ way) = some (.file content mode)
  supported : (directory.joinAll way).language?.isSome = true
  passes : ∀ front name back node, way = front ++ name :: back →
    d.node? (loc ++ (front ++ [name])) = some node → Passes d p around directory front name node

/-- Every directory on the way has a path that is short enough to be opened. -/
def Opens (directory : Path) (way : List Bytes) : Prop :=
  ∀ front name back, way = front ++ name :: back →
    (directory.joinAll front).bytes.length < Disk.pathLimit

/-! ## Ways -/

section
variable {d : Disk} {directory : Path} {loc : Location}

theorem opens_cons {name : Bytes} {way : List Bytes} :
    Opens directory (name :: way) ↔
      directory.bytes.length < Disk.pathLimit ∧ Opens (directory.join ⟨name⟩) way := by
  constructor
  · intro h
    refine ⟨h [] name way rfl, fun front next back hway => ?_⟩
    exact h (name :: front) next back (by rw [hway]; rfl)
  · rintro ⟨hfirst, hrest⟩ front next back hway
    cases front with
    | nil => exact hfirst
    | cons first front =>
      obtain ⟨rfl, htail⟩ := List.cons.inj hway
      exact hrest front next back htail

/-- What holds of every entry on a way holds of its first one and of those on the rest of it. -/
theorem forall_entry_cons {P : List Bytes → Bytes → Node → Prop} {name : Bytes}
    {way : List Bytes} :
    (∀ front next back node, name :: way = front ++ next :: back →
        d.node? (loc ++ (front ++ [next])) = some node → P front next node) ↔
      (∀ node, d.node? (loc ++ [name]) = some node → P [] name node) ∧
        ∀ front next back node, way = front ++ next :: back →
          d.node? (loc ++ [name] ++ (front ++ [next])) = some node → P (name :: front) next node := by
  have hassoc : ∀ tail, loc ++ name :: tail = loc ++ [name] ++ tail := by simp
  constructor
  · intro h
    refine ⟨fun node hnode => h [] name way node rfl hnode, fun front next back node hway hnode => ?_⟩
    refine h (name :: front) next back node (by rw [hway]; rfl) ?_
    rwa [List.cons_append, hassoc]
  · rintro ⟨hfirst, hrest⟩ front next back node hway hnode
    cases front with
    | nil =>
      obtain ⟨rfl, rfl⟩ := List.cons.inj hway
      exact hfirst node hnode
    | cons first front =>
      obtain ⟨rfl, htail⟩ := List.cons.inj hway
      rw [List.cons_append, hassoc] at hnode
      exact hrest front next back node htail hnode

theorem list_of_reach {directory : Path} {loc : Location} (h : d.reach true directory = .ok loc)
    (hdir : d.node? loc = some .directory) :
    (directory.bytes.length < Disk.pathLimit → d.list directory = .ok (d.children loc)) ∧
      (¬ directory.bytes.length < Disk.pathLimit → ∃ fault, d.list directory = .error fault) := by
  constructor
  · intro hshort
    rw [Disk.list, Disk.resolve_of_reach hshort, h]
    simp [bind, Except.bind, hdir, pure, Except.pure]
  · intro hlong
    have hnul := (Disk.reach_eq_ok.1 h).1
    exact ⟨.nameTooLong, by simp [Disk.list, Disk.resolve, not_lt.1 hlong, hnul, bind, Except.bind]⟩

/-- No way is longer than there are entries: each directory on it is an entry of its own. -/
theorem length_le_of_node? (wf : d.WellFormed) {loc way : Location} {node : Node}
    (h : d.node? (loc ++ way) = some node) : way.length ≤ d.entries.length := by
  have hplace : ∀ k < way.length, loc ++ way.take (k + 1) ∈ d.places := by
    intro k hk
    have hne : loc ++ way.take (k + 1) ≠ [] := by
      apply List.append_ne_nil_of_right_ne_nil
      apply List.ne_nil_of_length_pos
      rw [List.length_take]
      omega
    obtain ⟨n, hn⟩ : ∃ n, d.node? (loc ++ way.take (k + 1)) = some n := by
      by_cases hlast : k + 1 = way.length
      · exact ⟨node, by rwa [hlast, List.take_length]⟩
      · refine ⟨.directory, wf.rooted h _ way[k + 1] ?_⟩
        rw [List.append_assoc, List.prefix_append_right_inj, List.take_append_getElem (by omega)]
        exact List.take_prefix _ _
    exact Disk.mem_places (Disk.mem_of_node? hne hn)
  have hnodup : ((List.range way.length).map fun k => loc ++ way.take (k + 1)).Nodup := by
    refine List.Nodup.map_on (fun j hj k hk heq => ?_) List.nodup_range
    have hlen := congrArg List.length (List.append_cancel_left heq)
    rw [List.mem_range] at hj hk
    rw [List.length_take, List.length_take] at hlen
    omega
  have hsub : ((List.range way.length).map fun k => loc ++ way.take (k + 1)) ⊆ d.places := by
    intro place hp
    obtain ⟨k, hk, rfl⟩ := List.mem_map.1 hp
    exact hplace k (List.mem_range.1 hk)
  have hle := (List.subperm_of_subset hnodup hsub).length_le
  simpa [Disk.places] using hle

theorem mem_files {w : Walk} {f : Path} : f ∈ w.files ↔ .file f ∈ w.items := by
  rw [files, List.mem_filterMap]
  constructor
  · rintro ⟨item, hitem, heq⟩
    cases item with
    | file path =>
      obtain rfl : path = f := Option.some.inj heq
      exact hitem
    | failed path details => simp at heq
  · exact fun h => ⟨.file f, h, rfl⟩

theorem files_sublist (w : Walk) : w.files.Sublist (w.items.map WalkItem.path) := by
  rw [files]
  induction w.items with
  | nil => exact .slnil
  | cons item items ih =>
    cases item with
    | file path => exact ih.cons_cons path
    | failed path details => exact ih.cons path

end

/-! ## Files at the end of a way -/

section Way
variable [IgnoreRules] {d : Disk} {p : Plan} {around : IgnoreRules.Scope} {directory : Path} {loc : Location}

theorem Plan.admits_iff {path : Path} {name : Bytes} {node : Node} :
    p.admits around path name node = true ↔
      IgnoreRules.rejects p.ignoring around path node.isDirectory = false ∧
        ¬ (node = .directory ∧ name = Bytes.ofText ".git") ∧ p.exclusion.excludes path p.root = false := by
  have hgit : isVersionControl name node = true ↔ node = .directory ∧ name = Bytes.ofText ".git" := by
    simp [isVersionControl, Node.isDirectory]
  rw [← hgit, Bool.not_eq_true, Plan.admits]
  simp [and_assoc]

theorem passes_nil {name : Bytes} {node : Node} :
    Passes d p around directory [] name node ↔
      p.admits (IgnoreRules.enter d p.ignoring around directory) (directory.join ⟨name⟩) name node =
        true := by
  rw [Plan.admits_iff]
  exact ⟨fun h => ⟨h.visible, h.tracked, h.included⟩, fun h => ⟨h.2.1, h.2.2, h.1⟩⟩

theorem passes_cons {first name : Bytes} {front : List Bytes} {node : Node} :
    Passes d p around directory (first :: front) name node ↔
      Passes d p (IgnoreRules.enter d p.ignoring around directory) (directory.join ⟨first⟩) front name
        node :=
  ⟨fun h => ⟨h.tracked, h.included, h.visible⟩, fun h => ⟨h.tracked, h.included, h.visible⟩⟩

/-- No way leads to the directory itself. -/
theorem Selects.ne_nil {way : List Bytes} (h : Selects d p around directory loc way)
    (hdir : d.node? loc = some .directory) : way ≠ [] := by
  rintro rfl
  obtain ⟨content, mode, hnode⟩ := h.regular
  simp [hdir] at hnode

theorem selects_singleton {name : Bytes} :
    Selects d p around directory loc [name] ↔
      ∃ content mode, d.node? (loc ++ [name]) = some (.file content mode) ∧
        (directory.join ⟨name⟩).language?.isSome = true ∧
        Passes d p around directory [] name (.file content mode) := by
  constructor
  · intro h
    obtain ⟨content, mode, hnode⟩ := h.regular
    exact ⟨content, mode, hnode, h.supported, (forall_entry_cons.1 h.passes).1 _ hnode⟩
  · rintro ⟨content, mode, hnode, hlang, hpass⟩
    refine ⟨⟨content, mode, hnode⟩, hlang, forall_entry_cons.2 ⟨fun node hnode' => ?_, by simp⟩⟩
    obtain rfl : Node.file content mode = node := Option.some.inj (hnode.symm.trans hnode')
    exact hpass

theorem selects_cons {name : Bytes} {way : List Bytes}
    (hdir : d.node? (loc ++ [name]) = some .directory) :
    Selects d p around directory loc (name :: way) ↔
      Passes d p around directory [] name .directory ∧
        Selects d p (IgnoreRules.enter d p.ignoring around directory) (directory.join ⟨name⟩)
          (loc ++ [name]) way := by
  constructor
  · intro h
    obtain ⟨hfirst, hrest⟩ := forall_entry_cons.1 h.passes
    refine ⟨hfirst _ hdir, by simpa using h.regular, h.supported, ?_⟩
    exact fun front next back node hway hnode => passes_cons.1 (hrest front next back node hway hnode)
  · rintro ⟨hpass, hbelow⟩
    refine ⟨by simpa using hbelow.regular, hbelow.supported,
      forall_entry_cons.2 ⟨fun node hnode => ?_, fun front next back node hway hnode => ?_⟩⟩
    · obtain rfl : Node.directory = node := Option.some.inj (hdir.symm.trans hnode)
      exact hpass
    · exact passes_cons.2 (hbelow.passes front next back node hway hnode)

/-- A way is the name of a file, or goes on from a directory. -/
theorem Selects.cases (wf : d.WellFormed) (hdir : d.node? loc = some .directory) {way : List Bytes}
    (h : Selects d p around directory loc way) :
    (∃ name, way = [name]) ∨ ∃ name rest, way = name :: rest ∧
      d.node? (loc ++ [name]) = some .directory ∧ Passes d p around directory [] name .directory ∧
      Selects d p (IgnoreRules.enter d p.ignoring around directory) (directory.join ⟨name⟩)
        (loc ++ [name]) rest := by
  obtain ⟨name, rest, rfl⟩ := List.exists_cons_of_ne_nil (h.ne_nil hdir)
  by_cases hnil : rest = []
  · exact .inl ⟨name, by rw [hnil]⟩
  · obtain ⟨content, mode, hregular⟩ := h.regular
    obtain ⟨next, back, rfl⟩ := List.exists_cons_of_ne_nil hnil
    have hnode : d.node? (loc ++ [name]) = some .directory :=
      wf.rooted hregular (loc ++ [name]) next ⟨back, by simp⟩
    exact .inr ⟨name, next :: back, rfl, hnode, (selects_cons hnode).1 h⟩

end Way

section Below
variable [IgnoreRules] {d : Disk} {p : Plan}

theorem file_mem_entryItems {around : IgnoreRules.Scope} {directory f : Path} {levels : Nat} {name : Bytes}
    {node : Node} :
    .file f ∈ entryItems d p around directory levels (name, node) ↔
      p.admits around (directory.join ⟨name⟩) name node = true ∧
        ((∃ content mode, node = .file content mode) ∧
            (directory.join ⟨name⟩).language?.isSome = true ∧ f = directory.join ⟨name⟩ ∨
          node = .directory ∧ .file f ∈ below d p around (directory.join ⟨name⟩) levels) := by
  rw [entryItems_eq]
  split_ifs with hadmits
  · cases node with
    | file content mode =>
      simp only [fileItem]
      split_ifs with hlang <;> simp [hadmits, hlang]
    | directory => simp [hadmits]
    | link target => simp
  · simp [hadmits]

/-- The files of a walk at most `levels` levels below a directory. -/
theorem file_mem_below (wf : d.WellFormed) {around : IgnoreRules.Scope} {directory : Path} {loc : Location}
    (h : d.reach true directory = .ok loc) (hdir : d.node? loc = some .directory) (levels : Nat)
    (f : Path) :
    .file f ∈ below d p around directory levels ↔
      ∃ way, way.length ≤ levels ∧ f = directory.joinAll way ∧ Selects d p around directory loc way ∧
        Opens directory way := by
  induction levels generalizing around directory loc with
  | zero =>
    simp only [below, List.not_mem_nil, Nat.le_zero, List.length_eq_zero_iff, false_iff, not_exists]
    rintro way ⟨rfl, -, hselects, -⟩
    exact hselects.ne_nil hdir rfl
  | succ levels ih =>
    obtain ⟨hlist, hfault⟩ := list_of_reach h hdir
    by_cases hshort : directory.bytes.length < Disk.pathLimit
    · rw [below_of_list (hlist hshort), List.mem_flatMap]
      constructor
      · rintro ⟨⟨name, node⟩, he, hfile⟩
        have hnode := wf.node?_of_mem (Disk.mem_children.1 he)
        obtain ⟨hadmits, ⟨⟨content, mode, rfl⟩, hlang, rfl⟩ | ⟨rfl, hbelow⟩⟩ :=
          file_mem_entryItems.1 hfile
        · refine ⟨[name], by simp, rfl, selects_singleton.2
            ⟨content, mode, hnode, hlang, passes_nil.2 hadmits⟩, opens_cons.2 ⟨hshort, ?_⟩⟩
          intro front next back hway
          simp at hway
        · obtain ⟨way, hlen, rfl, hselects, hopens⟩ :=
            (ih (wf.reach_child h he (by simp)) hnode).1 hbelow
          exact ⟨name :: way, by simpa using hlen, rfl,
            (selects_cons hnode).2 ⟨passes_nil.2 hadmits, hselects⟩, opens_cons.2 ⟨hshort, hopens⟩⟩
      · rintro ⟨way, hlen, rfl, hselects, hopens⟩
        have hmem : ∀ {name node}, d.node? (loc ++ [name]) = some node → (name, node) ∈ d.children loc :=
          fun hnode => Disk.mem_children.2 (Disk.mem_of_node? (by simp) hnode)
        obtain ⟨name, rfl⟩ | ⟨name, rest, rfl, hnode, hpass, hrest⟩ := hselects.cases wf hdir
        · obtain ⟨content, mode, hnode, hlang, hpass⟩ := selects_singleton.1 hselects
          exact ⟨_, hmem hnode, file_mem_entryItems.2
            ⟨passes_nil.1 hpass, .inl ⟨⟨content, mode, rfl⟩, hlang, rfl⟩⟩⟩
        · have hbelow := (ih (wf.reach_child h (hmem hnode) (by simp)) hnode).2
            ⟨rest, by simpa using hlen, rfl, hrest, (opens_cons.1 hopens).2⟩
          exact ⟨_, hmem hnode, file_mem_entryItems.2 ⟨passes_nil.1 hpass, .inr ⟨rfl, hbelow⟩⟩⟩
    · obtain ⟨fault, hfault⟩ := hfault hshort
      have hnone : .file f ∉ below d p around directory (levels + 1) := by
        rw [below_of_error hfault]
        simp [faultItem]
      simp only [hnone, false_iff, not_exists]
      rintro way ⟨-, -, hselects, hopens⟩
      obtain ⟨name, way, rfl⟩ := List.exists_cons_of_ne_nil (hselects.ne_nil hdir)
      exact hshort (opens_cons.1 hopens).1

end Below

section Files
variable [IgnoreRules] {d : Disk} {p : Plan}

/-- The files of a walk are those of its directories; what stands above the root adds none. -/
theorem files_ofPlan (hinput : Path.same p.root standardInput = false)
    (hroot : d.stat p.root = .ok .directory) (levels : Nat) :
    (ofPlan d p levels).files =
      files { items := below d p (IgnoreRules.above d p.ignoring p.root) p.root levels } := by
  rw [ofPlan, start, hinput, hroot]
  have hfaults : ∀ faults : List (Path × String),
      files { items := faults.flatMap fun e => [.failed e.1 e.2] } = [] := fun faults => by
    rw [files, List.filterMap_eq_nil_iff]
    intro item hitem
    obtain ⟨e, -, hitem⟩ := List.mem_flatMap.1 hitem
    rw [List.mem_singleton.1 hitem]
  simp only [Bool.false_eq_true, if_false, List.flatMap_append, List.flatMap_map, Find.items, files,
    List.filterMap_append, List.flatMap_singleton] at hfaults ⊢
  rw [hfaults, List.nil_append]

theorem ofPlan_files (wf : d.WellFormed) {place : Location}
    (hplace : d.resolve true p.root = .ok place) (hdir : d.node? place = some .directory)
    (hinput : Path.same p.root standardInput = false) (recursive : Bool) :
    (ofPlan d p (levels d recursive)).files.Nodup ∧
      ∀ f, f ∈ (ofPlan d p (levels d recursive)).files ↔
        ∃ way, f = p.root.joinAll way ∧ (recursive = false → way.length = 1) ∧
          Selects d p (IgnoreRules.above d p.ignoring p.root) p.root place way ∧
          Opens p.root way := by
  have hreach := Disk.reach_of_resolve hplace
  rw [files_ofPlan hinput (Disk.stat_eq_ok.2 ⟨place, hplace, hdir⟩)]
  refine ⟨((files_sublist _).nodup (enumerates_below wf p _ hreach _).1.nodup), fun f => ?_⟩
  rw [mem_files, file_mem_below wf hreach hdir]
  constructor
  · rintro ⟨way, hlen, rfl, hselects, hopens⟩
    refine ⟨way, rfl, fun hrec => ?_, hselects, hopens⟩
    have hpos := List.length_pos_iff.2 (hselects.ne_nil hdir)
    rw [levels, hrec] at hlen
    simp at hlen
    omega
  · rintro ⟨way, rfl, hdepth, hselects, hopens⟩
    refine ⟨way, ?_, rfl, hselects, hopens⟩
    obtain ⟨content, mode, hnode⟩ := hselects.regular
    cases recursive with
    | false => exact (hdepth rfl).le
    | true => exact length_le_of_node? wf hnode

end Files
end Walk

namespace Exclusion

/-- Both lists of patterns. -/
def append (e e' : Exclusion) : Exclusion := ⟨e.byName ++ e'.byName, e.byPath ++ e'.byPath⟩

theorem append_nil (e : Exclusion) : e.append {} = e := by
  simp [append]

theorem add_append [Globs] (e e' : Exclusion) (pattern : String) :
    (e.append e').add pattern = (e'.add pattern).map e.append := by
  unfold add
  split_ifs
  · rfl
  · cases Globs.compile false pattern <;> simp [append, Except.map]
  · cases Globs.compile false pattern <;> simp [append, Except.map]

theorem foldlM_add [Globs] (patterns : List String) (e e' : Exclusion) :
    patterns.foldlM add (e.append e') = (patterns.foldlM add e').map e.append := by
  induction patterns generalizing e' with
  | nil => rfl
  | cons pattern patterns ih =>
    rw [List.foldlM_cons, List.foldlM_cons, add_append]
    cases e'.add pattern with
    | error fault => rfl
    | ok next => exact ih next

theorem ofPatterns_append [Globs] {patterns patterns' : List String} {e e' : Exclusion}
    (h : ofPatterns patterns = .ok e) (h' : ofPatterns patterns' = .ok e') :
    ofPatterns (patterns ++ patterns') = .ok (e.append e') := by
  rw [ofPatterns] at h h' ⊢
  rw [List.foldlM_append, h]
  have hrest := foldlM_add patterns' e {}
  rw [append_nil, h'] at hrest
  exact hrest

theorem excludes_append (e e' : Exclusion) (path root : Path) :
    (e.append e').excludes path root = (e.excludes path root || e'.excludes path root) := by
  cases hname : path.fileName? with
  | none => simp [excludes, append, hname]
  | some name =>
    simp only [excludes, append, hname, Option.any_some, List.any_append]
    cases e.byName.any (· name) <;> cases e'.byName.any (· name) <;> simp

end Exclusion

namespace Walk

theorem selects_append [IgnoreRules] {d : Disk} {root directory : Path} {ignoring : IgnoreOptions}
    {e e' : Exclusion} {around : IgnoreRules.Scope} {loc : Location} {way : List Bytes} :
    Selects d ⟨root, ignoring, e.append e'⟩ around directory loc way ↔
      Selects d ⟨root, ignoring, e⟩ around directory loc way ∧
        Selects d ⟨root, ignoring, e'⟩ around directory loc way := by
  have hpasses : ∀ front name node,
      Passes d ⟨root, ignoring, e.append e'⟩ around directory front name node ↔
        Passes d ⟨root, ignoring, e⟩ around directory front name node ∧
          Passes d ⟨root, ignoring, e'⟩ around directory front name node := by
    intro front name node
    constructor
    · intro h
      have hboth := h.included
      rw [Exclusion.excludes_append, Bool.or_eq_false_iff] at hboth
      exact ⟨⟨h.tracked, hboth.1, h.visible⟩, ⟨h.tracked, hboth.2, h.visible⟩⟩
    · rintro ⟨h, h'⟩
      refine ⟨h.tracked, ?_, h.visible⟩
      rw [Exclusion.excludes_append, Bool.or_eq_false_iff]
      exact ⟨h.included, h'.included⟩
  constructor
  · intro h
    exact ⟨⟨h.regular, h.supported, fun front name back node hway hnode =>
        ((hpasses front name node).1 (h.passes front name back node hway hnode)).1⟩,
      ⟨h.regular, h.supported, fun front name back node hway hnode =>
        ((hpasses front name node).1 (h.passes front name back node hway hnode)).2⟩⟩
  · rintro ⟨h, h'⟩
    exact ⟨h.regular, h.supported, fun front name back node hway hnode => (hpasses front name node).2
      ⟨h.passes front name back node hway hnode, h'.passes front name back node hway hnode⟩⟩

end Walk

theorem walk_eq_ok [Globs] [IgnoreRules] {d : Disk} (options : WalkOptions) {exclusion : Exclusion}
    (h : Exclusion.ofPatterns options.exclude = .ok exclusion) (root : Path) :
    walk d options root = .ok (Walk.ofPlan d ⟨root, ⟨options.hidden, options.gitIgnore⟩, exclusion⟩
      (Walk.levels d options.recursive)) := by
  rw [walk, Walk.Plan.ofOptions, h]
  rfl

/-- The walk of a directory reports each file that it promises once and no other: the supported
regular files with a way from the root on which every entry passes and every directory can be opened.
Without recursion these are the ones directly below the root, and with more patterns those that both
lists of patterns leave. -/
theorem walk_selects [Globs] [IgnoreRules] {d : Disk} (wf : d.WellFormed) (options : WalkOptions)
    {exclusion : Exclusion} (hexclude : Exclusion.ofPatterns options.exclude = .ok exclusion)
    {root : Path} {place : Location} (hplace : d.resolve true root = .ok place)
    (hroot : d.node? place = some .directory) (hinput : Path.same root Walk.standardInput = false) :
    ∃ w, walk d options root = .ok w ∧ w.files.Nodup ∧
      (∀ f, f ∈ w.files ↔ ∃ way, f = root.joinAll way ∧
        (options.recursive = false → way.length = 1) ∧
        Walk.Selects d ⟨root, ⟨options.hidden, options.gitIgnore⟩, exclusion⟩
          (IgnoreRules.above d ⟨options.hidden, options.gitIgnore⟩ root) root place way ∧
        Walk.Opens root way) ∧
      (∃ shallow deep, walk d { options with recursive := false } root = .ok shallow ∧
        walk d { options with recursive := true } root = .ok deep ∧
        ∀ f, f ∈ shallow.files ↔ f ∈ deep.files ∧ ∃ name, IsName name ∧ f = root.join ⟨name⟩) ∧
      ∀ more exclusion', Exclusion.ofPatterns more = .ok exclusion' →
        ∃ w' both, walk d { options with exclude := more } root = .ok w' ∧
          walk d { options with exclude := options.exclude ++ more } root = .ok both ∧
          ∀ f, f ∈ both.files ↔ f ∈ w.files ∧ f ∈ w'.files := by
  have hempty : root.isEmpty = false := (Disk.reach_eq_ok.1 (Disk.reach_of_resolve hplace)).2.1
  have hfiles := fun (e : Exclusion) (recursive : Bool) =>
    @Walk.ofPlan_files _ d ⟨root, ⟨options.hidden, options.gitIgnore⟩, e⟩ wf place hplace hroot hinput
      recursive
  -- a file is found on one way only
  have hunique : ∀ {e e' : Exclusion} {way way' : List Bytes},
      Walk.Selects d ⟨root, ⟨options.hidden, options.gitIgnore⟩, e⟩
        (IgnoreRules.above d ⟨options.hidden, options.gitIgnore⟩ root) root place way →
      Walk.Selects d ⟨root, ⟨options.hidden, options.gitIgnore⟩, e'⟩
        (IgnoreRules.above d ⟨options.hidden, options.gitIgnore⟩ root) root place way' →
      root.joinAll way = root.joinAll way' → way = way' := by
    intro e e' way way' h h' heq
    obtain ⟨_, _, hnode⟩ := h.regular
    obtain ⟨_, _, hnode'⟩ := h'.regular
    exact Path.joinAll_inj hempty (fun name hname => wf.isName hnode name (by simp [hname]))
      (fun name hname => wf.isName hnode' name (by simp [hname])) (congrArg _ heq)
  refine ⟨_, walk_eq_ok options hexclude root, (hfiles exclusion options.recursive).1,
    (hfiles exclusion options.recursive).2, ?_, ?_⟩
  · refine ⟨_, _, walk_eq_ok { options with recursive := false } hexclude root,
      walk_eq_ok { options with recursive := true } hexclude root, fun f => ?_⟩
    rw [(hfiles exclusion false).2, (hfiles exclusion true).2]
    constructor
    · rintro ⟨way, rfl, hdepth, hselects, hopens⟩
      obtain ⟨name, rfl⟩ := List.length_eq_one_iff.1 (hdepth rfl)
      obtain ⟨_, _, hnode⟩ := hselects.regular
      exact ⟨⟨[name], rfl, by simp, hselects, hopens⟩, name, wf.isName hnode name (by simp), rfl⟩
    · rintro ⟨⟨way, rfl, -, hselects, hopens⟩, name, hname, heq⟩
      obtain ⟨_, _, hnode⟩ := hselects.regular
      obtain rfl : way = [name] := Path.joinAll_inj hempty
        (fun n hn => wf.isName hnode n (by simp [hn])) (by simpa using hname) (congrArg _ heq)
      exact ⟨[name], rfl, fun _ => rfl, hselects, hopens⟩
  · intro more exclusion' hmore
    refine ⟨_, _, walk_eq_ok { options with exclude := more } hmore root,
      walk_eq_ok { options with exclude := options.exclude ++ more }
        (Exclusion.ofPatterns_append hexclude hmore) root, fun f => ?_⟩
    rw [(hfiles _ options.recursive).2, (hfiles exclusion options.recursive).2,
      (hfiles exclusion' options.recursive).2]
    constructor
    · rintro ⟨way, rfl, hdepth, hselects, hopens⟩
      obtain ⟨h, h'⟩ := Walk.selects_append.1 hselects
      exact ⟨⟨way, rfl, hdepth, h, hopens⟩, way, rfl, hdepth, h', hopens⟩
    · rintro ⟨⟨way, rfl, hdepth, hselects, hopens⟩, way', heq, -, hselects', -⟩
      obtain rfl := hunique hselects hselects' heq
      exact ⟨way, rfl, hdepth, Walk.selects_append.2 ⟨hselects, hselects'⟩, hopens⟩

/-- Sources on two levels, and one among the version control data. -/
def sourceTree : Disk :=
  { entries :=
      [([Bytes.ofText "p"], .directory),
        ([Bytes.ofText "p", Bytes.ofText "a.ts"], .file [] 0o644),
        ([Bytes.ofText "p", Bytes.ofText "q"], .directory),
        ([Bytes.ofText "p", Bytes.ofText "q", Bytes.ofText "b.ts"], .file [] 0o644),
        ([Bytes.ofText "p", Bytes.ofText ".git"], .directory),
        ([Bytes.ofText "p", Bytes.ofText ".git", Bytes.ofText "c.ts"], .file [] 0o644)]
    home := [] }

theorem wellFormed_sourceTree : sourceTree.WellFormed := by decide

theorem walk_selects_sourceTree :
    ∃ w deep, walk sourceTree { recursive := false } (Path.ofText "p") = .ok w ∧
      walk sourceTree {} (Path.ofText "p") = .ok deep ∧
      w.files = [Path.ofText "p/a.ts"] ∧
      deep.files = [Path.ofText "p/a.ts", Path.ofText "p/q/b.ts"] ∧
      ∀ f, f ∈ w.files ↔ f ∈ deep.files ∧ ∃ name, IsName name ∧ f = (Path.ofText "p").join ⟨name⟩ := by
  have hplace : sourceTree.resolve true (Path.ofText "p") = .ok [Bytes.ofText "p"] := by cbv
  obtain ⟨-, -, -, -, ⟨w, deep, hw, hdeep, hdepth⟩, -⟩ :=
    walk_selects wellFormed_sourceTree { recursive := false } rfl hplace (by cbv) (by cbv)
  have hfiles : (walk sourceTree { recursive := false } (Path.ofText "p")).map Walk.files =
      .ok [Path.ofText "p/a.ts"] := by cbv
  have hmore : (walk sourceTree {} (Path.ofText "p")).map Walk.files =
      .ok [Path.ofText "p/a.ts", Path.ofText "p/q/b.ts"] := by cbv
  refine ⟨w, deep, hw, hdeep, ?_, ?_, hdepth⟩
  · rw [hw] at hfiles
    exact Except.ok.inj hfiles
  · rw [hdeep] at hmore
    exact Except.ok.inj hmore

/-! ## Roots that are not walked -/

/-- A directory with the name that stands for standard input. -/
def dashTree : Disk :=
  { entries :=
      [([Bytes.ofText "-"], .directory), ([Bytes.ofText "-", Bytes.ofText "a.ts"], .file [] 0o644)]
    home := [] }

theorem selects_dashTree :
    Walk.Selects dashTree ⟨Walk.standardInput, ⟨true, true⟩, {}⟩
      (RuleStack.start dashTree true Walk.standardInput) Walk.standardInput [Bytes.ofText "-"]
      [Bytes.ofText "a.ts"] := by
  refine Walk.selects_singleton.2 ⟨[], 0o644, by decide, by cbv, Walk.passes_nil.2 ?_⟩
  cbv

/-- A file two levels deep. -/
def deepTree : Disk :=
  { entries :=
      [([Bytes.ofText "d"], .directory), ([Bytes.ofText "d", Bytes.ofText "e"], .directory),
        ([Bytes.ofText "d", Bytes.ofText "e", Bytes.ofText "a.ts"], .file [] 0o644)]
    home := [] }

theorem wellFormed_deepTree : deepTree.WellFormed := by decide

/-- The directory `d` with so many slashes that no name fits behind it. -/
def deepRoot : Path := .slashed (Bytes.ofText "d") 4093 []

theorem length_deepRoot : deepRoot.bytes.length = 4095 := by
  rw [deepRoot, Path.length_slashed]
  decide

theorem isName_e : IsName (Bytes.ofText "e") := by decide

theorem length_deepRoot_join : (deepRoot.join ⟨Bytes.ofText "e"⟩).bytes.length = 4096 := by
  rw [deepRoot, Path.slashed_join isName_e, Path.length_slashed]
  decide

theorem resolve_deepRoot : deepTree.resolve true deepRoot = .ok [Bytes.ofText "d"] := by
  have hname : IsName (Bytes.ofText "d") := by decide
  rw [Disk.resolve_of_reach (by rw [length_deepRoot]; decide), deepRoot,
    Disk.reach_slashed hname rfl (by decide) (by simp)]
  cbv

theorem DirectoryRules.silent_of_long (d : Disk) {directory : Path}
    (h : Disk.pathLimit ≤ directory.bytes.length + 1) : (read d false directory).Silent := by
  have hnamed : ∀ text : String, (Path.ofText text).isAbsolute = false →
      1 ≤ (Path.ofText text).bytes.length →
      (ofFile d (directory.join (Path.ofText text))).1 = [] := by
    intro text hrelative hlength
    have hjoin := directory.le_length_join hrelative
    obtain ⟨fault, hfault⟩ := d.stat_of_long (p := directory.join (Path.ofText text)) (by omega)
    rw [ofFile_of_stat hfault]
  refine silent_read fun source hsource => ?_
  cases source with
  | own => exact hnamed _ (by decide) (by decide)
  | general => exact hnamed _ (by decide) (by decide)
  | git | gitExclude => simp [RuleSource.admitted, RuleSource.all, RuleSource.isGit] at hsource

theorem RuleStack.silent_start {d : Disk} {gitIgnore : Bool} {root : Path} {place : Location}
    (hplace : d.resolve true root = .ok place)
    (h : ∀ loc ∈ ancestors place, (DirectoryRules.read d gitIgnore (Disk.absolute loc)).Silent) :
    (start d gitIgnore root).inner = [] ∧ ∀ r ∈ (start d gitIgnore root).outer, r.Silent := by
  rw [start, hplace]
  cases d.canonical root with
  | error fault => exact ⟨rfl, by simp⟩
  | ok base => exact ⟨rfl, by simpa using h⟩

theorem Path.fileName?_join (p : Path) {name : Bytes} (h : IsName name) :
    (p.join ⟨name⟩).fileName? = some name := by
  by_cases hp : p.isEmpty
  · have hjoin : p.join ⟨name⟩ = ⟨Bytes.join slash [name]⟩ := by
      have hbytes : p.bytes = [] := by simpa [isEmpty] using hp
      simp [join, h.not_isAbsolute, hp, hbytes, Bytes.join]
    have hcomponents := components_of_names (List.cons_ne_nil name []) (by simpa using h)
    rw [fileName?, hjoin, hcomponents]
    rfl
  · rw [fileName?, components_join (by simpa using hp) h, List.getLast?_concat]

theorem selects_deepTree :
    Walk.Selects deepTree ⟨deepRoot, ⟨true, false⟩, {}⟩ (RuleStack.start deepTree false deepRoot) deepRoot
      [Bytes.ofText "d"] [Bytes.ofText "e", Bytes.ofText "a.ts"] := by
  have htop : (DirectoryRules.read deepTree false (Disk.absolute [])).Silent := by
    have hall : (DirectoryRules.read deepTree false (Disk.absolute [])).lists.all
        (·.2.rules.isEmpty) := by cbv
    exact fun e he => by simpa using List.all_eq_true.1 hall e he
  obtain ⟨hinner, houter⟩ := @RuleStack.silent_start deepTree false deepRoot _ resolve_deepRoot
    (by simpa [RuleStack.ancestors] using htop)
  have hroot : (DirectoryRules.read deepTree false deepRoot).Silent :=
    DirectoryRules.silent_of_long deepTree (by rw [length_deepRoot]; decide)
  have hbelow : (DirectoryRules.read deepTree false (deepRoot.join ⟨Bytes.ofText "e"⟩)).Silent :=
    DirectoryRules.silent_of_long deepTree (by rw [length_deepRoot_join]; decide)
  have hname : IsName (Bytes.ofText "a.ts") := by decide
  have henter : ∀ (s : RuleStack) (directory : Path), IgnoreRules.enter deepTree ⟨true, false⟩ s directory =
      s.enter (DirectoryRules.read deepTree false directory) := fun _ _ => rfl
  refine (Walk.selects_cons (by decide)).2 ⟨Walk.passes_nil.2 ?_,
    Walk.selects_singleton.2 ⟨[], 0o644, by decide, ?_, Walk.passes_nil.2 ?_⟩⟩
  · rw [henter, Walk.Plan.admits_of_silent rfl rfl]
    · decide
    · simpa [RuleStack.enter, hinner] using hroot
    · simpa [RuleStack.enter] using houter
  · rw [Path.language?, Path.extension?, Path.fileName?_join _ hname]
    cbv
  · rw [henter, henter, Walk.Plan.admits_of_silent rfl rfl]
    · decide
    · simpa [RuleStack.enter, hinner] using ⟨hbelow, hroot⟩
    · simpa [RuleStack.enter] using houter

theorem files_deepTree (recursive : Bool) :
    (Walk.ofPlan deepTree ⟨deepRoot, ⟨true, false⟩, {}⟩ (Walk.levels deepTree recursive)).files = [] := by
  have hinput : Path.same deepRoot Walk.standardInput = false := by
    rw [Path.same, deepRoot, Path.components_slashed (by decide)]
    decide
  rw [List.eq_nil_iff_forall_not_mem]
  intro f hf
  obtain ⟨way, -, -, hselects, hopens⟩ :=
    ((@Walk.ofPlan_files _ deepTree ⟨deepRoot, ⟨true, false⟩, {}⟩ wellFormed_deepTree _ resolve_deepRoot
      (by decide) hinput recursive).2 f).1 hf
  obtain ⟨content, mode, hnode⟩ := hselects.regular
  have hentry := Disk.mem_of_node? (by simp) hnode
  obtain rfl : way = [Bytes.ofText "e", Bytes.ofText "a.ts"] := by
    simp [deepTree] at hentry
    exact hentry.1
  have hshort : (deepRoot.join ⟨Bytes.ofText "e"⟩).bytes.length < Disk.pathLimit := by
    simpa only [Path.joinAll, List.foldl_cons, List.foldl_nil] using
      hopens [Bytes.ofText "e"] (Bytes.ofText "a.ts") [] rfl
  rw [length_deepRoot_join] at hshort
  exact absurd hshort (by decide)

/-- Two walks that do not report a file with a way on which every entry passes: the root `-` is not
walked at all, and a directory is not entered when its path is too long. -/
theorem walk_omits :
    (dashTree.WellFormed ∧ dashTree.stat Walk.standardInput = .ok .directory ∧
      ∃ w, walk dashTree {} Walk.standardInput = .ok w ∧ w.files = [] ∧
        Walk.Selects dashTree ⟨Walk.standardInput, ⟨true, true⟩, {}⟩
          (RuleStack.start dashTree true Walk.standardInput) Walk.standardInput [Bytes.ofText "-"]
          [Bytes.ofText "a.ts"]) ∧
    (deepTree.WellFormed ∧ deepTree.stat deepRoot = .ok .directory ∧
      ∃ w, walk deepTree { gitIgnore := false } deepRoot = .ok w ∧ w.files = [] ∧
        Walk.Selects deepTree ⟨deepRoot, ⟨true, false⟩, {}⟩ (RuleStack.start deepTree false deepRoot)
          deepRoot [Bytes.ofText "d"] [Bytes.ofText "e", Bytes.ofText "a.ts"]) := by
  refine ⟨⟨of_decide_eq_true (by cbv), by cbv, _, walk_eq_ok {} rfl _, ?_, selects_dashTree⟩,
    wellFormed_deepTree, Disk.stat_eq_ok.2 ⟨_, resolve_deepRoot, by cbv⟩, _,
    walk_eq_ok { gitIgnore := false } rfl _, files_deepTree true, selects_deepTree⟩
  cbv

end Uncomment
